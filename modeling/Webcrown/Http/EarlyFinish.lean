import Webcrown.Http.BodyFraming
import Webcrown.Http.OpeningBoundary

/-!
# How much of a body is waited for

`Content-Length` is looked at in one corner case only: when its value is positive
and the head comes alone. Any other body is taken from the chunks that happen to
arrive first.
-/

namespace Webcrown.Http

open Bytes Common

def Call.Finishes (c : Call) : Prop :=
  c.result.request.isSome = true ∨ c.result.parser.parsePhase = .finished

/-- The bytes received behind the head, which is in the first chunk. -/
def received (h : RequestHead) (cs : List Call) : ℕ :=
  (cs.map fun c => c.chunk.bytes.length).sum - h.bytes.length

/-- No call ends the request before `n` body bytes have been received. -/
def WaitsForBody (h : RequestHead) (n : ℕ) (cs : List Call) : Prop :=
  ∀ as c bs, cs = as ++ c :: bs → c.Finishes → n ≤ received h (as ++ [c])

def RequestHead.searched (h : RequestHead) : Option ByteString :=
  if h.contentType.takesMedia then (h.field (ascii "content-type")).bind boundaryParameter else none

/-- Where no boundary is searched for: a head that comes alone makes the next chunk
the body, or makes the parser wait for ever; else what comes with the head is all. -/
def FramedPlain (h : RequestHead) (n : ℕ) (body : ByteString) (chunks : List ByteString) : Prop :=
  if body = [] ∧ 0 < numeralInt n then
    h.contentType.takesMedia = true ∨ ∀ B ∈ chunks.head?, n ≤ B.length
  else n ≤ body.length

/-- Where `b` is searched for: the length is not cut short by `atoi`, and no chunk
holds `b` and a line end behind it too early, the first one behind the start of its
opening boundary. -/
def FramedSearch (b : ByteString) (n : ℕ) (body : ByteString) (chunks : List ByteString) : Prop :=
  (body = [] ∧ 0 < numeralInt n) ∨
    ((n < 2 ^ 31 ∨ numeralInt n < 0) ∧
      (body.length < n →
        (uploadPart b (behindBoundary b (body.dropWhile (· == dash)))).2 = false) ∧
      ∀ as B bs, chunks = as ++ B :: bs → (body ++ as.flatten ++ B).length < n →
        (uploadPart b B).2 = false)

theorem received_append_le (h : RequestHead) (as bs : List Call) :
    received h as ≤ received h (as ++ bs) := by
  simp only [received, List.map_append, List.sum_append]
  omega

theorem waitsForBody_of_first {h : RequestHead} {n : ℕ} {as bs : List Call} {c : Call}
    (has : ∀ d ∈ as, ¬ d.Finishes) (hc : c.Finishes) :
    WaitsForBody h n (as ++ c :: bs) ↔ n ≤ received h (as ++ [c]) := by
  constructor
  · intro hw
    exact hw as c bs rfl hc
  · intro hn as' d bs' heq hd
    rcases List.append_eq_append_iff.mp heq with ⟨x, rfl, hx⟩ | ⟨x, rfl, hx⟩
    · cases x with
      | nil =>
        simp only [List.nil_append, List.cons.injEq] at hx
        rw [← hx.1]
        simpa using hn
      | cons e x =>
        simp only [List.cons_append, List.cons.injEq] at hx
        have := received_append_le h (as ++ [c]) (x ++ [d])
        rw [← hx.1]
        simp only [List.append_assoc, List.singleton_append] at this ⊢
        exact hn.trans this
    · cases x with
      | nil =>
        simp only [List.nil_append, List.cons.injEq] at hx
        rw [hx.1]
        simpa using hn
      | cons e x =>
        simp only [List.cons_append, List.cons.injEq] at hx
        exact absurd hd (has d (by simp [hx.1]))

theorem waitsForBody_of_none {h : RequestHead} {n : ℕ} {cs : List Call}
    (hcs : ∀ d ∈ cs, ¬ d.Finishes) : WaitsForBody h n cs := by
  rintro as c bs rfl hc
  exact absurd hc (hcs c (by simp))

theorem Run.uncons {p q : Parser} {cs : List Call} {x : ByteString} {xs : List ByteString}
    (h : Run p cs q) (hchunks : (cs.map fun c => c.chunk.bytes) = x :: xs) :
    ∃ c cs', cs = c :: cs' ∧ c.chunk.bytes = x ∧ (cs'.map fun c => c.chunk.bytes) = xs ∧
      p.call c.chunk = .ok c.result ∧ Run c.result.parser cs' q := by
  cases h with
  | nil => simp at hchunks
  | @cons c cs' q h =>
    simp only [List.map_cons, List.cons.injEq] at hchunks
    exact ⟨c, cs', rfl, hchunks.1, hchunks.2, c.returned, h⟩

namespace RequestHead

theorem received_first (h : RequestHead) {c : Call} {body : ByteString}
    (hc : c.chunk.bytes = h.bytes ++ body) : received h [c] = body.length := by
  simp [received, hc]

theorem waits_iff (h : RequestHead) {v : ByteString} {n : ℕ}
    (hv : h.field (ascii "content-length") = some v) (hn : IsNumeral v n) (body : ByteString) :
    (body = [] ∧ ∃ v, h.field (ascii "content-length") = some v ∧ 0 < atoi v) ↔
      (body = [] ∧ 0 < numeralInt n) := by
  simp [hv, atoi_numeral hn]

/-- A first call whose content is handed to the upload search, no boundary known: it
takes the CR LF behind the head for an upload. -/
theorem call_media_unbounded (h : RequestHead) {c : Chunk} {body v : ByteString} (t : ContentType)
    (hc : c.bytes = h.bytes ++ body) (htype : h.contentType.takesMedia = true)
    (hv : h.field (ascii "content-length") = some v) (hsearch : h.searched = none)
    (hwait : ¬(body = [] ∧ ∃ v, h.field (ascii "content-length") = some v ∧ 0 < atoi v)) :
    ∃ r, (Parser.fresh t).call c = .ok r ∧ r.parser.parsePhase = .finished := by
  have hsize := h.size_chunk hc
  set s : Cursor := ⟨h.parsed (Parser.fresh t), c.size - (body.length + 4), none, []⟩ with hs
  have hvalue : ∃ w, h.field (ascii "content-type") = some w ∧ boundaryParameter w = none := by
    rw [searched, if_pos htype] at hsearch
    cases hw : h.field (ascii "content-type") with
    | none => simp [contentType, hw, ContentType.takesMedia] at htype
    | some w => exact ⟨w, rfl, by simpa [hw] using hsearch⟩
  obtain ⟨w, hw, hnone⟩ := hvalue
  have hbegin : parseMediaTypeBegin c.memory c.size s =
      { s with
        parser := { s.parser with parsePhase := .parseMediaType }
        ec := some .noBoundaryHeaderForMultipart } := by
    have hlookup : s.parser.headers.lookup (ascii "content-type") = some w := by
      rw [← hw]
      exact h.lookup_headers _
    simp [parseMediaTypeBegin, hlookup, hnone]
  have hpart : uploadPart [] (slice c.memory s.it c.size) = (crlf, true) := by
    rw [hs, h.slice_chunk hc]
    simp [uploadPart, find_of_startsWith, crlf]
  have hcall := parseContent_media_part hbegin rfl htype ((h.lookup_headers _).trans hv)
    (by constructor <;> simp [hs, parsed, Parser.fresh])
    (show s.it < c.size by simp only [hs]; omega) hpart
    (by simp [hs, parsed, Parser.fresh, crlf, maxSize])
  refine ⟨_, ((h.call_fresh t hc (h.supported_of_takesMedia htype)).trans
    (if_neg hwait)).trans hcall, ?_⟩
  simp [finishMedia, Parser.takePart]

end RequestHead

/-- Without a boundary to search for, the length of a body is waited for exactly when
the body is framed by its chunks. -/
theorem waitsForBody_iff_framedPlain {h : RequestHead} {v : ByteString} {n : ℕ}
    (htype : h.contentType.supported = true)
    (hv : h.field (ascii "content-length") = some v) (hn : IsNumeral v n)
    (hsearch : h.searched = none) {t : ContentType} {q : Parser} {cs : List Call}
    {body : ByteString} {chunks : List ByteString} (hrun : Run (Parser.fresh t) cs q)
    (hchunks : (cs.map fun c => c.chunk.bytes) = (h.bytes ++ body) :: chunks) :
    WaitsForBody h n cs ↔ FramedPlain h n body chunks := by
  obtain ⟨c, cs', rfl, hc, hchunks', hcall, hrun'⟩ := hrun.uncons hchunks
  have hwaits := h.waits_iff hv hn body
  have hfirst := h.call_fresh t hc htype
  by_cases hwait : body = [] ∧ 0 < numeralInt n
  · rw [if_pos (hwaits.mpr hwait), hcall, Except.ok.injEq] at hfirst
    have hphase : c.result.parser.parsePhase = .parseBodyPending := by rw [hfirst]
    have hctype : c.result.parser.headerContentType = h.contentType := by
      rw [hfirst]
      rfl
    have hopen : ¬ c.Finishes := by
      rintro (h | h) <;> rw [hfirst] at h <;> cases h
    rw [FramedPlain, if_pos hwait]
    rcases ContentType.takesBody_or_takesMedia htype with hbody | hmedia
    · have hmedia : h.contentType.takesMedia ≠ true := fun hm => by
        simp [ContentType.takesBody_eq_false hm] at hbody
      cases chunks with
      | nil =>
        simp only [List.map_eq_nil_iff] at hchunks'
        subst hchunks'
        refine iff_of_true (waitsForBody_of_none fun d hd => ?_) (Or.inr (by simp))
        rw [List.mem_singleton.mp hd]
        exact hopen
      | cons B chunks =>
        obtain ⟨d, ds, rfl, hd, -, hcall', -⟩ := hrun'.uncons hchunks'
        rw [Parser.call_pending_body d.chunk hphase (hctype ▸ hbody), Except.ok.injEq] at hcall'
        have hfin : d.Finishes := Or.inr (by rw [← hcall'])
        have hreceived : received h [c, d] = B.length := by
          simp [received, hc, hd, hwait.1]
        have := @waitsForBody_of_first h n [c] ds d
          (fun e he => List.mem_singleton.mp he ▸ hopen) hfin
        simp only [List.singleton_append, hreceived] at this
        rw [this]
        simp [hmedia]
    · have hbody := ContentType.takesBody_eq_false hmedia
      have hfix := (hrun'.fixed fun d => Parser.call_pending_media d hphase (hctype ▸ hbody)).2
      refine iff_of_true (waitsForBody_of_none fun d hd => ?_) (Or.inl hmedia)
      rcases List.mem_cons.mp hd with rfl | hd
      · exact hopen
      · rintro (h | h) <;> rw [(hfix d hd).2] at h
        · cases h
        · rw [hphase] at h
          cases h
  · have hwait' := fun hw => hwait (hwaits.mp hw)
    rw [FramedPlain, if_neg hwait]
    have hfin : c.Finishes := by
      rcases ContentType.takesBody_or_takesMedia htype with hbody | hmedia
      · rw [h.call_body t hc hbody hwait', Except.ok.injEq] at hcall
        exact Or.inr (by rw [← hcall])
      · obtain ⟨r, hr, hphase⟩ := h.call_media_unbounded t hc hmedia hv hsearch hwait'
        rw [hcall, Except.ok.injEq] at hr
        exact Or.inr (by rw [hr, hphase])
    have := @waitsForBody_of_first h n [] cs' c (by simp) hfin
    rw [List.nil_append, List.nil_append, h.received_first hc] at this
    exact this

theorem Searching.not_finishes {c : Call} {v b : ByteString} {got : ℕ}
    (h : Searching c.result.parser v b got) (hnone : c.result.request = none) : ¬ c.Finishes := by
  rintro (hd | hd)
  · rw [hnone] at hd
    cases hd
  · rw [h.phase] at hd
    cases hd

/-- What keeps a collecting run from ending before `n` bytes. -/
theorem Searching.run {p q : Parser} {v b : ByteString} {got n : ℕ} {cs : List Call}
    (h : Searching p v b got) (hrun : Run p cs q)
    (hn : n ≤ sizeT (atoi v) ∨ maxSize < sizeT (atoi v))
    (hopen : ∀ as c bs, cs = as ++ c :: bs →
      got + (as.map fun c => c.chunk.bytes.length).sum + c.chunk.bytes.length < n →
      (uploadPart b c.chunk.bytes).2 = false) :
    ∀ as c bs, cs = as ++ c :: bs → c.Finishes →
      n ≤ got + (as.map fun c => c.chunk.bytes.length).sum + c.chunk.bytes.length := by
  induction hrun generalizing got with
  | nil => simp
  | @cons c cs q hrun ih =>
    have hfirst := hopen [] c cs rfl
    simp only [List.map_nil, List.sum_nil, Nat.add_zero] at hfirst
    rcases h.call c.returned with ⟨hnone, hnext⟩ | ⟨-, hdone⟩
    · have hrest := ih hnext fun as d bs hcs => by
        have := hopen (c :: as) d bs (by rw [hcs, List.cons_append])
        simpa [Nat.add_assoc] using this
      rintro (- | ⟨c', as⟩) d bs hcs hd
      · simp only [List.nil_append, List.cons.injEq] at hcs
        rw [← hcs.1] at hd
        exact absurd hd (hnext.not_finishes hnone)
      · simp only [List.cons_append, List.cons.injEq] at hcs
        rw [← hcs.1]
        have := hrest as d bs hcs.2 hd
        simpa [Nat.add_assoc] using this
    · have hgot : n ≤ got + c.chunk.bytes.length := by
        by_contra hlt
        rcases hdone with hclosed | hsize
        · rw [hfirst (by omega)] at hclosed
          cases hclosed
        · omega
      rintro (- | ⟨c', as⟩) d bs hcs -
      · simp only [List.nil_append, List.cons.injEq] at hcs
        rw [← hcs.1]
        simpa using hgot
      · simp only [List.cons_append, List.cons.injEq] at hcs
        rw [← hcs.1]
        simp only [List.map_cons, List.sum_cons]
        omega

theorem openingText_body (body : ByteString) :
    openingText (crlf ++ crlf ++ body) = body.dropWhile (· == dash) := by
  rw [openingText, if_pos (List.prefix_append _ _)]
  rfl

theorem RequestHead.call_media_search (h : RequestHead) {c : Chunk} {body v b : ByteString}
    {r : CallResult} (t : ContentType) (hc : c.bytes = h.bytes ++ body)
    (htype : h.contentType.takesMedia = true)
    (hv : h.field (ascii "content-length") = some v) (hsearch : h.searched = some b)
    (hwait : ¬(body = [] ∧ ∃ v, h.field (ascii "content-length") = some v ∧ 0 < atoi v))
    (hr : (Parser.fresh t).call c = .ok r) :
    (r.request = none ∧ Searching r.parser v b body.length) ∨
      (r.parser.parsePhase = .finished ∧
        ((uploadPart b (behindBoundary b (body.dropWhile (· == dash)))).2 = true ∨
          sizeT (atoi v) ≤ min body.length maxSize)) := by
  have hsize := h.size_chunk hc
  set s : Cursor := ⟨h.parsed (Parser.fresh t), c.size - (body.length + 4), none, []⟩ with hs
  rw [searched, if_pos htype, Option.bind_eq_some_iff] at hsearch
  obtain ⟨w, hw, hb⟩ := hsearch
  have hdash := head_boundaryParameter hb
  have hprint : ∀ c ∈ b, isPrint c = true := fun c hc =>
    h.print_field hw c (mem_boundaryParameter hb hc)
  set s' : Cursor := { s with
    parser := { s.parser with parsePhase := .parseMediaType, boundaryValue := b } } with hs'
  have hbegin : parseMediaTypeBegin c.memory c.size s = parseOpeningBoundary c.memory c.size s' :=
    parseMediaTypeBegin_eq ((h.lookup_headers _).trans hw) hb
  obtain ⟨k, hk⟩ : ∃ k, parseMediaTypeBegin c.memory c.size s = k := ⟨_, rfl⟩
  have hframe := (@parseMediaTypeBegin_frame c.memory c.size s).2
  have hspec := @parseOpeningBoundary_spec c.memory c.size s' _ _ rfl hdash
    hprint (by simp only [hs', hs]; omega)
    (by rw [show s'.it = c.size - (body.length + 4) from rfl, h.slice_chunk hc, openingText_body])
  rw [← hbegin, hk] at hspec
  rw [hk] at hframe
  obtain ⟨hval, hlen, hit⟩ := hspec
  have hcl : k.parser.headers.lookup (ascii "content-length") = some v := by
    rw [hframe.headers]
    exact (h.lookup_headers _).trans hv
  have hbuf : k.parser.bufferSizeReaded = 0 := hframe.bufferSizeReaded
  have hok : k.parser.BoundaryOk := ⟨by rw [hlen, hval], by rwa [hval], by rwa [hval]⟩
  have hpat : k.parser.pattern = b := by rw [Parser.pattern, hval, hlen, List.take_length]
  rw [h.call_fresh t hc (h.supported_of_takesMedia htype), if_neg hwait] at hr
  rcases hit with ⟨hle, hsuffix⟩ | ⟨hlt, hle⟩
  · rcases hle.eq_or_lt with he | hlt
    · rw [parseContent_media_at_end hk rfl htype hcl he, Except.ok.injEq] at hr
      subst hr
      exact Or.inl ⟨rfl, rfl, hcl, ⟨hok.1, hok.2, hok.3⟩, hpat, by simp [hbuf], by simp [hbuf]⟩
    · obtain ⟨part, hpart⟩ : ∃ part, uploadPart k.parser.pattern (slice c.memory k.it c.size) =
        part := ⟨_, rfl⟩
      have hpartlen := (uploadPart_isPrefix k.parser.pattern (slice c.memory k.it c.size)).length_le
      have hrest := hsuffix.length_le.trans (length_behindBoundary_le _ _)
      have hdrop := (List.dropWhile_suffix (l := body) (· == dash)).length_le
      have hmax : c.size ≤ maxSize := c.size_le
      rw [hpart] at hpartlen
      have hsum : k.parser.bufferSizeReaded + part.1.length ≤ maxSize := by
        rw [length_slice] at hpartlen
        omega
      rw [parseContent_media_part hk rfl htype hcl hok hlt hpart hsum, Except.ok.injEq] at hr
      rcases finishMedia_takePart k.parser v part (k.it + part.1.length) k.ec
          (k.ranges ++ [(k.it, k.it + part.1.length)]) with ⟨-, -, hmore⟩ | ⟨hdone, hfin, -⟩
      · rw [hmore] at hr
        subst hr
        exact Or.inl ⟨rfl, rfl, hcl, ⟨hok.1, hok.2, hok.3⟩, hpat, by dsimp only; omega, hsum⟩
      · rw [hr] at hfin
        refine Or.inr ⟨hfin, ?_⟩
        rcases hdone with hclosed | hcount
        · left
          by_contra hopen
          rw [Bool.not_eq_true] at hopen
          rw [hpat, uploadPart_open_of_suffix hopen hsuffix] at hpart
          rw [← hpart] at hclosed
          cases hclosed
        · right
          omega
  · obtain ⟨s'', herr⟩ := parseMediaTypeMore_overrun c.memory hcl hlt hle hbuf
    rw [parseContent_media rfl htype, hk, herr] at hr
    cases hr

theorem sizeT_of_neg {z : ℤ} (h : z < 0) (hz : -2 ^ 31 ≤ z) : maxSize < sizeT z := by
  simp only [sizeT, maxSize]
  omega

theorem numeralInt_ge (n : ℕ) : -2 ^ 31 ≤ numeralInt n := by
  have := Int.le_bmod (x := min (n : ℤ) (2 ^ 63 - 1)) (m := 2 ^ 32) (by norm_num)
  simpa [numeralInt] using this

/-- Where a boundary is searched for, a framed body is waited for. -/
theorem waitsForBody_of_framedSearch {h : RequestHead} {v b : ByteString} {n : ℕ}
    (hv : h.field (ascii "content-length") = some v) (hn : IsNumeral v n)
    (hsearch : h.searched = some b) {t : ContentType} {q : Parser} {cs : List Call}
    {body : ByteString} {chunks : List ByteString} (hrun : Run (Parser.fresh t) cs q)
    (hchunks : (cs.map fun c => c.chunk.bytes) = (h.bytes ++ body) :: chunks)
    (hframed : FramedSearch b n body chunks) : WaitsForBody h n cs := by
  have hmedia : h.contentType.takesMedia = true := by
    by_contra hm
    rw [RequestHead.searched, if_neg hm] at hsearch
    cases hsearch
  have hwaits := h.waits_iff hv hn body
  obtain ⟨c, cs', rfl, hc, rfl, hcall, hrun'⟩ := hrun.uncons hchunks
  by_cases hwait : body = [] ∧ 0 < numeralInt n
  · -- the parser stays in a phase in which uploads are never looked at
    rw [h.call_fresh t hc (h.supported_of_takesMedia hmedia), if_pos (hwaits.mpr hwait),
      Except.ok.injEq] at hcall
    rw [← hcall] at hrun'
    have hfix := (hrun'.fixed fun d => Parser.call_pending_media d rfl
      (ContentType.takesBody_eq_false hmedia)).2
    apply waitsForBody_of_none
    intro d hd
    rcases List.mem_cons.mp hd with rfl | hd
    · rintro (h | h) <;> rw [← hcall] at h <;> cases h
    · rintro (h | h) <;> rw [(hfix d hd).2] at h <;> cases h
  · obtain ⟨hsize, hfirst, hrest⟩ := hframed.resolve_left hwait
    have hsize' : n ≤ sizeT (atoi v) ∨ maxSize < sizeT (atoi v) := by
      rw [atoi_numeral hn]
      rcases hsize with hlt | hneg
      · left
        rw [numeralInt_of_lt hlt, sizeT_natCast (by simp only [maxSize]; omega)]
      · exact Or.inr (sizeT_of_neg hneg (numeralInt_ge n))
    have hhead : ∀ as : List Call, received h (c :: as) =
        body.length + (as.map fun c => c.chunk.bytes.length).sum := by
      intro as
      simp only [received, List.map_cons, List.sum_cons, hc, List.length_append]
      omega
    rcases h.call_media_search t hc hmedia hv hsearch (fun hw => hwait (hwaits.mp hw)) hcall with
      ⟨hnone, hsearching⟩ | ⟨hfin, hdone⟩
    · have hlater := hsearching.run hrun' hsize' fun as d bs hcs hlt => by
        refine hrest (as.map fun c => c.chunk.bytes) d.chunk.bytes
          (bs.map fun c => c.chunk.bytes) (by simp [hcs]) ?_
        simpa [List.length_flatten, Function.comp_def, Nat.add_assoc] using hlt
      rintro (- | ⟨c', as⟩) d bs hcs hd
      · simp only [List.nil_append, List.cons.injEq] at hcs
        rw [← hcs.1] at hd
        exact absurd hd (hsearching.not_finishes hnone)
      · simp only [List.cons_append, List.cons.injEq] at hcs
        have := hlater as d bs hcs.2 hd
        rw [← hcs.1, List.cons_append, hhead]
        simpa [Nat.add_assoc] using this
    · have hle : n ≤ body.length := by
        by_contra hlt
        rcases hdone with hclosed | hcount
        · rw [hfirst (by omega)] at hclosed
          cases hclosed
        · omega
      rw [show c :: cs' = [] ++ c :: cs' from rfl, waitsForBody_of_first (by simp) (Or.inr hfin),
        List.nil_append, h.received_first hc]
      exact hle

/-- When the end of a request is not taken before `n` body bytes: for content taken as
it stands, exactly when the body is framed by its chunks; for content that is
searched for a boundary, when the search cannot end it either. -/
theorem waitsForBody_iff (h : RequestHead) (v : ByteString) (n : ℕ)
    (htype : h.contentType.supported = true)
    (hv : h.field (ascii "content-length") = some v) (hn : IsNumeral v n) (t : ContentType)
    (q : Parser) (cs : List Call) (body : ByteString) (chunks : List ByteString)
    (hrun : Run (Parser.fresh t) cs q)
    (hchunks : (cs.map fun c => c.chunk.bytes) = (h.bytes ++ body) :: chunks) :
    (h.searched = none → (WaitsForBody h n cs ↔ FramedPlain h n body chunks)) ∧
      ∀ b, h.searched = some b → FramedSearch b n body chunks → WaitsForBody h n cs :=
  ⟨fun hsearch => waitsForBody_iff_framedPlain htype hv hn hsearch hrun hchunks,
    fun _ hsearch hframed => waitsForBody_of_framedSearch hv hn hsearch hrun hchunks hframed⟩

def postHead : RequestHead where
  method := ascii "POST"
  target := ascii "/"
  lines := [⟨ascii "Content-Length", [sp], ascii "2", isValidToken_contentLength, blank_sp,
    by decide +kernel, by decide +kernel⟩]
  method_ne := postMethod_ne_nil
  method_alpha := isAlpha_postMethod
  target_ne := rootTarget_ne_nil
  target_path := isPathchar_rootTarget
  lines_ne := by simp
  lines_named := by decide +kernel

def postChunk : Chunk := ⟨postHead.bytes ++ ascii "h", fun _ => 0, by decide +kernel⟩

def postRestChunk : Chunk := ⟨ascii "i", fun _ => 0, by decide +kernel⟩

def postCall : Call := Call.of (Parser.fresh .unknown) postChunk (by decide +kernel)

def postRestCall : Call := Call.of postCall.result.parser postRestChunk (by decide +kernel)

theorem waitsForBody_iff_postHead :
    (postHead.searched = none → (WaitsForBody postHead 2 [postCall, postRestCall] ↔
      FramedPlain postHead 2 (ascii "h") [ascii "i"])) ∧
    ∀ b, postHead.searched = some b → FramedSearch b 2 (ascii "h") [ascii "i"] →
      WaitsForBody postHead 2 [postCall, postRestCall] :=
  waitsForBody_iff postHead (ascii "2") 2 (by decide +kernel) (by decide +kernel)
    (by decide +kernel) .unknown _ _ _ _ (Run.cons (Run.cons (c := postRestCall) (Run.nil _)))
    (by decide +kernel)

/-- A two-byte body in two chunks: the request is over after the first byte. -/
theorem postCall_finishes_early :
    postHead.field (ascii "content-type") = none ∧
      postHead.field (ascii "content-length") = some (ascii "2") ∧ IsNumeral (ascii "2") 2 ∧
      [postChunk.bytes, postRestChunk.bytes] = [postHead.bytes ++ ascii "h", ascii "i"] ∧
      ¬ WaitsForBody postHead 2 [postCall, postRestCall] := by
  refine ⟨by decide +kernel, by decide +kernel, by decide +kernel, rfl, ?_⟩
  intro hw
  have hfin : postCall.Finishes := Or.inr (by decide +kernel)
  have := hw [] postCall [postRestCall] rfl hfin
  revert this
  decide +kernel

end Webcrown.Http
