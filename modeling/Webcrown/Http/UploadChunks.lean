import Webcrown.Http.UploadBytes

/-!
# Uploads in chunks

A session feeds the bytes of a request to its parser chunk by chunk. Which chunks they
come in decides what becomes of an upload, unless the first one holds the part headers
and one of them the boundary that ends the part together with its line end.
-/

namespace Webcrown.Http

open Bytes Common

/-- The phase a parser ends in when it is fed the chunks, and the requests it returns on
the way. A call that throws ends the session. -/
def Parser.feed : Parser → List Chunk → Option (ParsePhase × List HttpRequest)
  | p, [] => some (p.parsePhase, [])
  | p, c :: cs =>
    match p.call c with
    | .error _ => none
    | .ok q => (q.parser.feed cs).map fun o => (o.1, q.request.toList ++ o.2)

/-- `σ` is the request in chunks, the first of which holds the whole head. -/
def UploadRequest.Splits (r : UploadRequest) (σ : List Chunk) : Prop :=
  (σ.map Chunk.bytes).flatten = r.bytes ∧ ∃ c ∈ σ.head?, r.head.bytes <+: c.bytes

/-- The first `b` in the pieces and the line end behind it lie in one piece, and fewer
than `limit` bytes in front of that piece. -/
def EndsInOne (b : ByteString) (limit : ℕ) (es : List ByteString) : Prop :=
  ∃ before x after i, es = before ++ x :: after ∧ find b es.flatten = some i ∧
    before.flatten.length ≤ i ∧
    (uploadPart b es.flatten).1.length ≤ before.flatten.length + x.length ∧
    before.flatten.length < limit

/-- The splittings that all lead to the same request. -/
def UploadRequest.Collected (r : UploadRequest) (σ : List Chunk) : Prop :=
  ∃ c cs e, σ = c :: cs ∧ c.bytes = r.head.bytes ++ (partHead r.boundary r.part ++ e) ∧
    r.pattern ≠ [] ∧ ¬[dash, dash] <:+ r.pattern ∧
    (r.data e :: cs.map Chunk.bytes).flatten.length ≤ maxSize ∧
    EndsInOne r.pattern (sizeT (atoi r.contentLength)) (r.data e :: cs.map Chunk.bytes)

theorem Parser.feed_cons {p : Parser} {c : Chunk} {q : CallResult} (h : p.call c = .ok q)
    (cs : List Chunk) :
    p.feed (c :: cs) = (q.parser.feed cs).map fun o => (o.1, q.request.toList ++ o.2) := by
  rw [feed, h]

theorem Parser.feed_finished {p : Parser} (h : p.parsePhase = .finished) (cs : List Chunk) :
    p.feed cs = some (.finished, []) := by
  induction cs with
  | nil => rw [feed, h]
  | cons c cs ih =>
    rw [feed_cons (call_idle (idle_of_finished h) c), ih]
    rfl

/-- A piece that ends in one piece is the one that completes the upload, and the pieces
before it leave it open. -/
theorem EndsInOne.parts {b : ByteString} {limit : ℕ} {es : List ByteString} (hne : b ≠ [])
    (hcr : cr ∉ b) (hclosed : (uploadPart b es.flatten).2 = true) (h : EndsInOne b limit es) :
    ∃ before x after, es = before ++ x :: after ∧
      (∀ y ∈ before, uploadPart b y = (y, false)) ∧ (uploadPart b x).2 = true ∧
      before.flatten ++ (uploadPart b x).1 = (uploadPart b es.flatten).1 ∧
      before.flatten.length < limit := by
  obtain ⟨before, x, after, i, rfl, hfind, hi, hlen, hlimit⟩ := h
  have hflat : (before ++ x :: after).flatten = before.flatten ++ (x ++ after.flatten) := by simp
  rw [hflat] at hfind hlen hclosed ⊢
  obtain ⟨hx, hpart⟩ := uploadPart_middle hcr hfind hi hclosed hlen
  refine ⟨before, x, after, rfl, fun y hy => ?_, hx, hpart, hlimit⟩
  obtain ⟨as, bs, rfl⟩ := List.append_of_mem hy
  have hnone : find b y = none := by
    have hsplit : (as ++ y :: bs).flatten ++ (x ++ after.flatten) =
        as.flatten ++ (y ++ (bs.flatten ++ (x ++ after.flatten))) := by simp
    rw [hsplit] at hfind
    refine find_none_of_lt hfind hne (le_trans ?_ hi)
    simp
  simp [uploadPart, hnone]

namespace UploadRequest

variable {r : UploadRequest} {t : ContentType}

theorem call_collector_open {got : ByteString} {c : Chunk}
    (hopen : uploadPart r.pattern c.bytes = (c.bytes, false))
    (hlimit : got.length + c.bytes.length < sizeT (atoi r.contentLength))
    (hmax : got.length + c.bytes.length ≤ maxSize) :
    ∃ ranges, (r.collector t got).call c =
      .ok ⟨r.collector t (got ++ c.bytes), none, ranges, none⟩ := by
  rcases eq_or_ne c.bytes [] with hnil | hne
  · exact ⟨[], by rw [Parser.call_needMore_nil rfl hnil, hnil, List.append_nil]⟩
  · have hpart : uploadPart (r.collector t got).pattern c.bytes = (c.bytes, false) := by
      rw [r.pattern_collector, hopen]
    have hcall := Parser.call_needMore rfl (r.lookup_collector t got)
      (r.boundaryOk_collector t got) hne hpart hmax
    rcases r.finishMedia_collector t got (c.bytes, false) c.bytes.length [(0, c.bytes.length)] with
      ⟨-, -, hmore⟩ | ⟨hdone, -⟩
    · exact ⟨_, hcall.trans (congrArg _ hmore)⟩
    · rcases hdone with h | h
      · cases h
      · dsimp only at h
        omega

theorem call_collector_closed {got : ByteString} {c : Chunk}
    (hclosed : (uploadPart r.pattern c.bytes).2 = true)
    (hmax : got.length + (uploadPart r.pattern c.bytes).1.length ≤ maxSize) :
    ∃ q, (r.collector t got).call c = .ok q ∧ q.parser.parsePhase = .finished ∧
      q.request = some (r.request (got ++ (uploadPart r.pattern c.bytes).1)) := by
  have hne : c.bytes ≠ [] := ne_nil_of_uploadPart_closed hclosed
  have hpart : uploadPart (r.collector t got).pattern c.bytes = uploadPart r.pattern c.bytes := by
    rw [r.pattern_collector]
  have hcall := Parser.call_needMore rfl (r.lookup_collector t got)
    (r.boundaryOk_collector t got) hne hpart hmax
  rcases r.finishMedia_collector t got (uploadPart r.pattern c.bytes)
      (uploadPart r.pattern c.bytes).1.length
      [(0, (uploadPart r.pattern c.bytes).1.length)] with ⟨hopen, -⟩ | ⟨-, hfin, hreq⟩
  · rw [hclosed] at hopen
    cases hopen
  · exact ⟨_, hcall, hfin, hreq⟩

theorem feed_collector {got : ByteString} {before after : List Chunk} {x : Chunk}
    (hopen : ∀ y ∈ before, uploadPart r.pattern y.bytes = (y.bytes, false))
    (hclosed : (uploadPart r.pattern x.bytes).2 = true)
    (hlimit : (got ++ (before.map Chunk.bytes).flatten).length < sizeT (atoi r.contentLength))
    (hmax : (got ++ (before.map Chunk.bytes).flatten ++
      (uploadPart r.pattern x.bytes).1).length ≤ maxSize) :
    (r.collector t got).feed (before ++ x :: after) =
      some (.finished, [r.request (got ++ (before.map Chunk.bytes).flatten ++
        (uploadPart r.pattern x.bytes).1)]) := by
  induction before generalizing got with
  | nil =>
    simp only [List.map_nil, List.flatten_nil, List.append_nil, List.length_append] at hmax ⊢
    obtain ⟨q, hcall, hfin, hreq⟩ := @call_collector_closed r t got x hclosed hmax
    rw [List.nil_append, Parser.feed_cons hcall, Parser.feed_finished hfin, hreq]
    rfl
  | cons y ys ih =>
    simp only [List.map_cons, List.flatten_cons, List.length_append] at hlimit hmax
    obtain ⟨ranges, hcall⟩ := @call_collector_open r t got y
      (hopen y (by simp)) (by omega) (by omega)
    rw [List.cons_append, Parser.feed_cons hcall, ih (fun z hz => hopen z (by simp [hz]))
      (by simp only [List.length_append]; omega) (by simp only [List.length_append]; omega)]
    simp

section First

variable {c : Chunk} {e : ByteString}
  (hc : c.bytes = r.head.bytes ++ (partHead r.boundary r.part ++ e)) (hne : r.pattern ≠ [])
  (hdashes : ¬[dash, dash] <:+ r.pattern)

include hc hne hdashes

theorem call_first_open (hopen : uploadPart r.pattern (r.data e) = (r.data e, false))
    (hlimit : (r.data e).length < sizeT (atoi r.contentLength)) :
    ∃ ranges, (Parser.fresh t).call c =
      .ok ⟨r.collector t (r.data e), none, ranges, none⟩ := by
  obtain ⟨it, ranges, hcall⟩ := r.call_partHead t hc hne hdashes
  refine ⟨ranges, ?_⟩
  by_cases hnil : r.data e = []
  · rw [hcall, if_pos hnil, hnil]
  · rw [hcall, if_neg hnil, hopen]
    rcases r.finishMedia_collector t [] (r.data e, false) it ranges with
      ⟨-, -, hmore⟩ | ⟨hdone, -⟩
    · rw [hmore, List.nil_append]
    · rcases hdone with h | h
      · cases h
      · simp only [List.length_nil, Nat.zero_add] at h
        omega

theorem call_first_closed (hclosed : (uploadPart r.pattern (r.data e)).2 = true) :
    ∃ q, (Parser.fresh t).call c = .ok q ∧ q.parser.parsePhase = .finished ∧
      q.request = some (r.request (uploadPart r.pattern (r.data e)).1) := by
  obtain ⟨it, ranges, hcall⟩ := r.call_partHead t hc hne hdashes
  have hnil : r.data e ≠ [] := ne_nil_of_uploadPart_closed hclosed
  rw [if_neg hnil] at hcall
  rcases r.finishMedia_collector t [] (uploadPart r.pattern (r.data e)) it ranges with
    ⟨hopen, -⟩ | ⟨-, hfin, hreq⟩
  · rw [hclosed] at hopen
    cases hopen
  · exact ⟨_, hcall, hfin, hreq⟩

end First

def upload (r : UploadRequest) : ByteString := r.data (r.content ++ closingLine r.boundary)

theorem data_append (e s : ByteString) : r.data (e ++ s) = r.data e ++ s := by
  unfold data
  split_ifs <;> simp

theorem flatten_pieces {c : Chunk} {cs : List Chunk} {e : ByteString} (h : r.Splits (c :: cs))
    (hc : c.bytes = r.head.bytes ++ (partHead r.boundary r.part ++ e)) :
    (r.data e :: cs.map Chunk.bytes).flatten = r.upload := by
  have htext := h.1
  simp only [List.map_cons, List.flatten_cons, hc, bytes, List.append_assoc,
    List.append_cancel_left_eq] at htext
  rw [List.flatten_cons, ← data_append, htext, upload]

theorem closed_upload : (uploadPart r.pattern r.upload).2 = true := by
  obtain ⟨s, hs, -⟩ := r.exists_stripped
  refine uploadPart_closed_iff.mpr ⟨r.data (r.content ++ (crlf ++ ([dash, dash] ++ s))),
    r.pattern ++ ([dash, dash] ++ crlf), ?_, List.prefix_append _ _, ?_⟩
  · have hline : closingLine r.boundary =
        (crlf ++ ([dash, dash] ++ s)) ++ (r.pattern ++ ([dash, dash] ++ crlf)) := by
      rw [closingLine]
      conv_lhs => rw [hs]
      simp
    rw [upload, hline, ← List.append_assoc, data_append]
  · exact ⟨r.pattern ++ [dash, dash], [], by simp⟩

/-- Collected, the request ends with all text up to the line end behind the first boundary. -/
theorem feed_of_collected {σ : List Chunk} (h : r.Splits σ) (hσ : r.Collected σ) :
    (Parser.fresh t).feed σ =
      some (.finished, [r.request (uploadPart r.pattern r.upload).1]) := by
  obtain ⟨c, cs, e, rfl, hc, hne, hdashes, hmax, hends⟩ := hσ
  have hflat := flatten_pieces h hc
  have hcr : cr ∉ r.pattern := not_mem_of_print r.print_pattern isPrint_cr
  obtain ⟨before, x, after, hsplit, hopen, hclosed, hup, hlimit⟩ :=
    hends.parts hne hcr (hflat ▸ closed_upload)
  rw [hflat] at hup hmax
  cases before with
  | nil =>
    simp only [List.nil_append, List.cons.injEq] at hsplit
    obtain ⟨rfl, -⟩ := hsplit
    obtain ⟨q, hcall, hfin, hreq⟩ := call_first_closed (t := t) hc hne hdashes hclosed
    rw [Parser.feed_cons hcall, Parser.feed_finished hfin, hreq, ← hup]
    rfl
  | cons y before =>
    simp only [List.cons_append, List.cons.injEq] at hsplit
    obtain ⟨rfl, hcs⟩ := hsplit
    obtain ⟨before, rest, rfl, rfl, hrest⟩ := List.map_eq_append_iff.mp hcs
    obtain ⟨x, after, rfl, rfl, -⟩ := List.map_eq_cons_iff.mp hrest
    have hfirst := hopen (r.data e) (by simp)
    rw [List.flatten_cons] at hlimit hup
    obtain ⟨ranges, hcall⟩ := call_first_open (t := t) hc hne hdashes hfirst
      (by rw [List.length_append] at hlimit; omega)
    rw [Parser.feed_cons hcall, feed_collector
      (fun z hz => hopen _ (List.mem_cons_of_mem _ (List.mem_map_of_mem hz))) hclosed hlimit
      (by rw [hup]; exact (uploadPart_isPrefix r.pattern r.upload).length_le.trans hmax), hup]
    rfl

/-- A boundary does not stand a second time in the line it opens. -/
theorem eq_zero_of_prefix_drop {b : ByteString} {k : ℕ} (hne : b ≠ []) (hdash : b.head? ≠ some dash)
    (hcr : cr ∉ b) (hlf : lf ∉ b) (h : b <+: (b ++ ([dash, dash] ++ crlf)).drop k) : k = 0 := by
  by_contra hk
  have hpos := List.length_pos_iff.mpr hne
  have hget : ∀ j < b.length, (b ++ ([dash, dash] ++ crlf))[k + j]? = b[j]? := by
    intro j hj
    obtain ⟨z, hz⟩ := h
    rw [← List.getElem?_drop, ← hz, List.getElem?_append_left hj]
  have hk2 : k ≤ 2 := by
    have hl := h.length_le
    simp only [List.length_drop, List.length_append, List.length_cons, List.length_nil,
      show crlf.length = 2 from rfl] at hl
    by_contra hgt
    obtain rfl | rfl : k = 3 ∨ k = 4 := by omega
    · have hc := hget (b.length - 1) (by omega)
      rw [List.getElem?_append_right (by omega),
        show 3 + (b.length - 1) - b.length = 2 by omega] at hc
      exact hcr (List.mem_of_getElem? hc.symm)
    · have hc := hget (b.length - 1) (by omega)
      rw [List.getElem?_append_right (by omega),
        show 4 + (b.length - 1) - b.length = 3 by omega] at hc
      exact hlf (List.mem_of_getElem? hc.symm)
  -- by the overlap every byte is the one `k` further on, and so a dash
  have hall : ∀ n j, b.length - j ≤ n → j < b.length → b[j]? = some dash := by
    intro n
    induction n with
    | zero => intro j h1 h2; omega
    | succ n ih =>
      intro j h1 h2
      rw [← hget j h2]
      rcases Nat.lt_or_ge (k + j) b.length with hlt | hge
      · rw [List.getElem?_append_left hlt]
        exact ih (k + j) (by omega) hlt
      · rw [List.getElem?_append_right hge]
        obtain h0 | h0 : k + j - b.length = 0 ∨ k + j - b.length = 1 := by omega
        · rw [h0]
          rfl
        · rw [h0]
          rfl
  apply hdash
  rw [List.head?_eq_getElem?]
  exact hall b.length 0 (by omega) hpos

theorem upload_split (hfree : ¬ r.pattern <:+: r.content) (hne : r.pattern ≠ []) :
    ∃ x, r.upload = x ++ (r.pattern ++ ([dash, dash] ++ crlf)) ∧
      find r.pattern r.upload = some x.length := by
  obtain ⟨s, hs, hstripped⟩ := r.exists_stripped
  obtain ⟨a, p, hp⟩ := List.exists_cons_of_ne_nil hne
  have hhead : r.pattern.head? = some a := by rw [hp]; rfl
  have hcr := not_mem_of_print r.print_pattern isPrint_cr
  have hlf := not_mem_of_print r.print_pattern isPrint_lf
  have ha : a ≠ 61 ∧ a ≠ dash := by
    have := List.head?_dropWhile_not (p := fun c : UInt8 => c == 61 || c == dash) (l := r.boundary)
    rw [← pattern, hhead] at this
    simpa using this
  have hfront : a ∉ lf :: dash :: dash :: s := by
    simp only [List.mem_cons, not_or]
    refine ⟨?_, ha.2, ha.2, fun hmem => ?_⟩
    · rintro rfl
      exact hlf (by rw [hp]; simp)
    · rcases hstripped a hmem with h | h
      · exact ha.1 h
      · exact ha.2 h
  have hclosing : closingLine r.boundary =
      cr :: ((lf :: dash :: dash :: s) ++ r.pattern ++ ([dash, dash] ++ crlf)) := by
    rw [closingLine]
    conv_lhs => rw [hs]
    simp [crlf]
  have hfind : find r.pattern (r.content ++ closingLine r.boundary) =
      some (r.content.length + s.length + 4) := by
    rw [hclosing, find_append_cons hne hcr hfree, find_append_of_head hhead hfront]
    simp only [Option.map_some, List.length_cons]
    congr 1
    omega
  unfold upload data
  split_ifs
  · refine ⟨r.content ++ cr :: lf :: dash :: dash :: s, by rw [hclosing]; simp, ?_⟩
    rw [hfind]
    simp
    omega
  · refine ⟨crlf ++ crlf ++ (r.content ++ cr :: lf :: dash :: dash :: s),
      by rw [hclosing]; simp, ?_⟩
    have hempty : ∀ x : ByteString, find r.pattern (crlf ++ x) =
        (find r.pattern x).map (· + 2) := by
      intro x
      have hnil : ∀ d : UInt8, d ∉ r.pattern → ∀ y, find r.pattern (d :: y) =
          (find r.pattern y).map (· + 1) := by
        intro d hd y
        exact find_append_cons (x := []) hne hd (by simpa using hne)
      rw [show crlf ++ x = cr :: lf :: x from rfl, hnil cr hcr, hnil lf hlf, Option.map_map]
      rfl
    rw [List.append_assoc, hempty, hempty, hfind]
    simp [crlf]
    omega

theorem endsInOne_of_closed {es : List ByteString} {limit : ℕ}
    (hfree : ¬ r.pattern <:+: r.content) (hne : r.pattern ≠ []) (hes : es.flatten = r.upload)
    (hlimit : es.flatten.length ≤ limit) {y : ByteString} (hy : y ∈ es)
    (hclosed : (uploadPart r.pattern y).2 = true) : EndsInOne r.pattern limit es := by
  have hcr := not_mem_of_print r.print_pattern isPrint_cr
  have hlf := not_mem_of_print r.print_pattern isPrint_lf
  obtain ⟨x, hx, hfind⟩ := r.upload_split hfree hne
  obtain ⟨before, after, rfl⟩ := List.append_of_mem hy
  obtain ⟨u, w, rfl, ⟨v, rfl⟩, hline⟩ := uploadPart_closed_iff.mp hclosed
  have hflat : (before ++ (u ++ (r.pattern ++ v)) :: after).flatten =
      (before.flatten ++ u) ++ (r.pattern ++ (v ++ after.flatten)) := by simp
  rw [hflat] at hes hlimit
  have hle : x.length ≤ (before.flatten ++ u).length := by
    by_contra hlt
    apply (find_spec hfind).2 _ (Nat.lt_of_not_le hlt)
    rw [← hes, List.drop_left]
    exact List.prefix_append _ _
  have hsame : (before.flatten ++ u).length = x.length := by
    have hdrop :
        (r.pattern ++ ([dash, dash] ++ crlf)).drop ((before.flatten ++ u).length - x.length) =
        r.pattern ++ (v ++ after.flatten) := by
      have := congrArg (List.drop (before.flatten ++ u).length) (hes.trans hx)
      rw [List.drop_left] at this
      rw [this, ← Nat.add_sub_cancel' hle, ← List.drop_drop, List.drop_left,
        Nat.add_sub_cancel_left]
    have := eq_zero_of_prefix_drop hne r.head_pattern hcr hlf (hdrop ▸ List.prefix_append _ _)
    omega
  have hrest : v ++ after.flatten = [dash, dash] ++ crlf := by
    have := (List.append_inj (hes.trans hx) hsame).2
    exact List.append_cancel_left this
  have hwhole : after.flatten = [] := by
    have hmem : lf ∈ r.pattern ++ v := hline.subset (by simp [crlf])
    have hv : lf ∈ v := (List.mem_append.mp hmem).resolve_left hlf
    by_contra hafter
    have hpos := List.length_pos_iff.mpr hafter
    have hlen := congrArg List.length hrest
    simp only [List.length_append, List.length_cons, List.length_nil,
      show crlf.length = 2 from rfl] at hlen
    have hpre : v <+: [dash, dash, cr] := by
      refine List.prefix_of_prefix_length_le (show v <+: [dash, dash] ++ crlf from ⟨_, hrest⟩)
        ⟨[lf], rfl⟩ ?_
      simp only [List.length_cons, List.length_nil]
      omega
    exact absurd (hpre.subset hv) (by decide)
  have htotal := congrArg List.length (hes.trans hx)
  simp only [hwhole, List.append_nil, List.length_append] at htotal hsame hlimit
  have hpos := List.length_pos_iff.mpr hne
  refine ⟨before, u ++ (r.pattern ++ v), after, x.length, rfl, ?_, by omega, ?_, by omega⟩
  · rw [hflat, hes, hfind]
  · rw [hflat, hes]
    refine (uploadPart_isPrefix _ _).length_le.trans ?_
    rw [hx]
    simp only [List.length_append]
    omega

theorem feed_collector_open {got : ByteString} {cs : List Chunk}
    (hopen : ∀ y ∈ cs, uploadPart r.pattern y.bytes = (y.bytes, false))
    (hlimit : (got ++ (cs.map Chunk.bytes).flatten).length < sizeT (atoi r.contentLength))
    (hmax : (got ++ (cs.map Chunk.bytes).flatten).length ≤ maxSize) :
    (r.collector t got).feed cs = some (.parseMediaTypeNeedMore, []) := by
  induction cs generalizing got with
  | nil => rfl
  | cons y ys ih =>
    simp only [List.map_cons, List.flatten_cons, List.length_append] at hlimit hmax
    obtain ⟨ranges, hcall⟩ := @call_collector_open r t got y
      (hopen y (by simp)) (by omega) (by omega)
    rw [Parser.feed_cons hcall, ih (fun z hz => hopen z (by simp [hz]))
      (by simp only [List.length_append]; omega) (by simp only [List.length_append]; omega)]
    rfl

theorem sizeT_contentLength
    (hn : (partHead r.boundary r.part ++ r.content ++ closingLine r.boundary).length < 2 ^ 31) :
    sizeT (atoi r.contentLength) =
      (partHead r.boundary r.part ++ r.content ++ closingLine r.boundary).length := by
  rw [atoi_numeral r.length_eq, numeralInt_of_lt hn, sizeT_natCast]
  unfold maxSize
  omega

theorem length_upload_lt (r : UploadRequest) : r.upload.length <
    (partHead r.boundary r.part ++ r.content ++ closingLine r.boundary).length := by
  have h2 := two_le_linesText r.part_ne
  have hb := List.length_pos_iff.mpr r.boundary_ne
  have hc : crlf.length = 2 := rfl
  unfold upload data
  split_ifs <;>
    · simp only [partHead, List.length_append, List.length_cons, List.length_nil, hc]
      omega

/-- A first chunk that is the head alone leaves a parser that waits for ever. -/
theorem feed_head {c : Chunk} {cs : List Chunk} (hc : c.bytes = r.head.bytes)
    (hpos : 0 < atoi r.contentLength) :
    (Parser.fresh t).feed (c :: cs) = some (.parseBodyPending, []) := by
  have hmedia := r.takesMedia_head
  have hcall := @RequestHead.call_fresh r.head c [] t (by rw [hc, List.append_nil])
    (r.head.supported_of_takesMedia hmedia)
  rw [if_pos ⟨rfl, _, r.length_field, hpos⟩] at hcall
  have hpending : ∀ (p : Parser) (ds : List Chunk), p.parsePhase = .parseBodyPending →
      p.headerContentType.takesBody = false → p.feed ds = some (.parseBodyPending, []) := by
    intro p ds hphase htype
    induction ds with
    | nil => rw [Parser.feed, hphase]
    | cons d ds ih =>
      rw [Parser.feed_cons (Parser.call_pending_media d hphase htype), ih]
      rfl
  rw [Parser.feed_cons hcall, hpending _ cs rfl (ContentType.takesBody_eq_false hmedia)]
  rfl

end UploadRequest

/-- Collected splittings of one upload request lead to the same phase and the same
request. In a body shorter than 2 GiB whose content holds no pattern, the splittings
whose first chunk is the head alone or reaches behind the part headers lead there only
when they are collected. -/
theorem feed_eq_of_collected (r : UploadRequest) (σ σ' : List Chunk) (t t' : ContentType)
    (h : r.Splits σ) (h' : r.Splits σ') (hσ : r.Collected σ) :
    (r.Collected σ' → (Parser.fresh t).feed σ = (Parser.fresh t').feed σ') ∧
    (¬ r.pattern <:+: r.content →
      (partHead r.boundary r.part ++ r.content ++ closingLine r.boundary).length < 2 ^ 31 →
      ∀ c ∈ σ'.head?, c.bytes = r.head.bytes ∨
        r.head.bytes ++ partHead r.boundary r.part <+: c.bytes →
      (Parser.fresh t).feed σ = (Parser.fresh t').feed σ' → r.Collected σ') := by
  have hfeed := UploadRequest.feed_of_collected (t := t) h hσ
  refine ⟨fun hσ' => by rw [hfeed, UploadRequest.feed_of_collected h' hσ'], ?_⟩
  intro hfree hn c hc hfirst hsame
  rw [hfeed] at hsame
  obtain ⟨c', cs, rfl⟩ : ∃ c' cs, σ' = c' :: cs := by
    cases σ' with
    | nil => cases hc
    | cons c' cs => exact ⟨c', cs, rfl⟩
  simp only [List.head?_cons, Option.mem_def, Option.some.injEq] at hc
  subst hc
  have hlimit := UploadRequest.sizeT_contentLength hn
  have hlt := r.length_upload_lt
  rcases hfirst with hhead | ⟨e, he⟩
  · have hpos : 0 < atoi r.contentLength := by
      rw [atoi_numeral r.length_eq, numeralInt_of_lt hn]
      omega
    rw [UploadRequest.feed_head hhead hpos] at hsame
    cases hsame
  · rw [List.append_assoc] at he
    obtain ⟨-, -, e₀, -, -, hne, hdashes, -, -⟩ := hσ
    have hflat := UploadRequest.flatten_pieces h' he.symm
    have hmax : r.upload.length ≤ maxSize := by
      unfold maxSize
      omega
    by_cases hclosed : ∃ y ∈ r.data e :: cs.map Chunk.bytes, (uploadPart r.pattern y).2 = true
    · obtain ⟨y, hy, hclosed⟩ := hclosed
      refine ⟨c', cs, e, rfl, he.symm, hne, hdashes, by rwa [hflat], ?_⟩
      exact UploadRequest.endsInOne_of_closed hfree hne hflat (by rw [hflat, hlimit]; omega) hy
        hclosed
    · -- nothing completes the upload, and the parser goes on waiting
      have hopen : ∀ y ∈ r.data e :: cs.map Chunk.bytes, uploadPart r.pattern y = (y, false) := by
        intro y hy
        apply uploadPart_of_open
        rw [Bool.eq_false_iff]
        exact fun hy' => hclosed ⟨y, hy, hy'⟩
      have hlen := congrArg List.length hflat
      rw [List.flatten_cons] at hlen
      have hfirst := hlen
      rw [List.length_append] at hfirst
      obtain ⟨ranges, hcall⟩ := UploadRequest.call_first_open (t := t') he.symm hne hdashes
        (hopen _ (by simp)) (by omega)
      rw [Parser.feed_cons hcall, UploadRequest.feed_collector_open
        (fun z hz => hopen _ (List.mem_cons_of_mem _ (List.mem_map_of_mem hz)))
        (by rw [hlen]; omega) (by rw [hlen]; omega)] at hsame
      cases hsame

def byteUploadHead : Chunk := ⟨byteUpload.head.bytes, fun _ => 0, by decide +kernel⟩

def byteUploadBody : Chunk :=
  ⟨partHead byteUpload.boundary byteUpload.part ++ byteUpload.content ++
    closingLine byteUpload.boundary, fun _ => 0, by decide +kernel⟩

def byteUploadStart : Chunk :=
  ⟨byteUpload.head.bytes ++ (partHead byteUpload.boundary byteUpload.part ++ byteUpload.content),
    fun _ => 0, by decide +kernel⟩

def byteUploadEnd : Chunk := ⟨closingLine byteUpload.boundary, fun _ => 0, by decide +kernel⟩

theorem feed_eq_of_collected_byteUpload :
    (Parser.fresh .unknown).feed [byteUploadChunk] =
        (Parser.fresh .unknown).feed [byteUploadStart, byteUploadEnd] ∧
      byteUpload.Collected [byteUploadStart, byteUploadEnd] := by
  have hcollected : byteUpload.Collected [byteUploadStart, byteUploadEnd] :=
    ⟨byteUploadStart, [byteUploadEnd], byteUpload.content, rfl, by decide +kernel,
      by decide +kernel, by decide +kernel, by decide +kernel,
      [byteUpload.data byteUpload.content], _, [], 5, rfl, by decide +kernel, by decide +kernel,
      by decide +kernel, by decide +kernel⟩
  obtain ⟨hsame, hconverse⟩ := feed_eq_of_collected byteUpload [byteUploadChunk]
    [byteUploadStart, byteUploadEnd] .unknown .unknown
    ⟨by decide +kernel, byteUploadChunk, rfl, by decide +kernel⟩
    ⟨by decide +kernel, byteUploadStart, rfl, by decide +kernel⟩
    ⟨byteUploadChunk, [], byteUpload.content ++ closingLine byteUpload.boundary, rfl,
      by decide +kernel, by decide +kernel, by decide +kernel, by decide +kernel,
      [], _, [], 5, rfl, by decide +kernel, by decide +kernel, by decide +kernel,
      by decide +kernel⟩
  refine ⟨hsame hcollected, hconverse (by decide +kernel) (by decide +kernel)
    byteUploadStart rfl (.inr ⟨byteUpload.content, by decide +kernel⟩) (hsame hcollected)⟩

/-- In one chunk the request is returned; with its head alone in the first one it never is. -/
theorem byteUpload_feed_ne :
    ¬ ∀ (r : UploadRequest) (σ σ' : List Chunk) (t t' : ContentType), r.Splits σ → r.Splits σ' →
      (Parser.fresh t).feed σ = (Parser.fresh t').feed σ' := by
  intro hall
  have hsame := hall byteUpload [byteUploadChunk] [byteUploadHead, byteUploadBody] .unknown .unknown
    ⟨by decide +kernel, byteUploadChunk, rfl, by decide +kernel⟩
    ⟨by decide +kernel, byteUploadHead, rfl, by decide +kernel⟩
  have hne : (Parser.fresh .unknown).feed [byteUploadChunk] ≠
      (Parser.fresh .unknown).feed [byteUploadHead, byteUploadBody] := by decide +kernel
  exact hne hsame

end Webcrown.Http
