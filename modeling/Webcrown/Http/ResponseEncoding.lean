import Webcrown.Common.Decimal
import Webcrown.Http.RequestHead
import Webcrown.Http.Response

/-!
# Responses read by the header parser

What `build` writes behind the status line is a header block to
`parse_message_header`: it reads the headers back, in whatever order they were
written, and stops in front of the body.
-/

namespace Webcrown.Http

open Bytes Common

def HttpResponse.addHeaders (r : HttpResponse) (fs : List (ByteString × ByteString)) :
    HttpResponse :=
  fs.foldl (fun r f => r.addHeader f.1 f.2) r

/-- A header that can be written as a line: a token, and printable text behind it. -/
structure Writable (f : ByteString × ByteString) : Prop where
  name_ne : f.1 ≠ []
  name_token : ∀ c ∈ f.1, isValidToken c = true
  value_print : ∀ c ∈ f.2, isPrint c = true
  value_head : f.2.head? ≠ some sp

/-- Headers that can be written beside a `Content-Length`, no name twice. -/
structure Sendable (fs : List (ByteString × ByteString)) : Prop where
  writable : ∀ f ∈ fs, Writable f
  distinct : (fs.map fun f => toLower f.1).Nodup
  notLength : ∀ f ∈ fs, toLower f.1 ≠ ascii "content-length"

def lengthField (body : ByteString) : List (ByteString × ByteString) :=
  if body.isEmpty then [] else [(ascii "Content-Length", HttpResponse.toDecimal body.length)]

def statusLine (status : HttpStatus) : ByteString :=
  ascii "HTTP/1.1" ++ ascii " " ++ HttpResponse.toDecimal (makeStatus status).1 ++ ascii " " ++
    (makeStatus status).2 ++ crlf

theorem toLower_contentLength : toLower (ascii "Content-Length") = ascii "content-length" := by
  decide +kernel

theorem token_contentLength : ∀ c ∈ ascii "Content-Length", isValidToken c = true := by
  decide +kernel

theorem mem_lengthField {body : ByteString} {f : ByteString × ByteString} :
    f ∈ lengthField body ↔
      body ≠ [] ∧ f = (ascii "Content-Length", HttpResponse.toDecimal body.length) := by
  unfold lengthField
  split_ifs with hempty
  · simp [List.isEmpty_iff.mp hempty]
  · simp [List.isEmpty_iff.not.mp hempty]

theorem writable_lengthField {body : ByteString} {f : ByteString × ByteString}
    (h : f ∈ lengthField body) : Writable f := by
  obtain ⟨-, rfl⟩ := mem_lengthField.mp h
  obtain ⟨hprint, hhead⟩ := print_decimal body.length
  exact ⟨by simp [ascii], token_contentLength, hprint, hhead⟩

theorem Sendable.distinct_append {fs : List (ByteString × ByteString)} (h : Sendable fs)
    (body : ByteString) : ((fs ++ lengthField body).map fun f => toLower f.1).Nodup := by
  rw [List.map_append, List.nodup_append']
  refine ⟨h.distinct, ?_, ?_⟩
  · unfold lengthField
    split_ifs <;> simp
  · intro name hname hlength
    obtain ⟨f, hf, rfl⟩ := List.mem_map.mp hname
    obtain ⟨g, hg, heq⟩ := List.mem_map.mp hlength
    unfold lengthField at hg
    split_ifs at hg
    · cases hg
    · obtain rfl := List.mem_singleton.mp hg
      exact h.notLength f hf (heq.symm.trans toLower_contentLength)

theorem HttpResponse.headers_addHeaders (r : HttpResponse)
    (fs : List (ByteString × ByteString)) (k : ByteString) :
    (r.addHeaders fs).headers.lookup k =
      (r.headers.lookup k).or ((fs.find? fun f => f.1 == k).map Prod.snd) := by
  induction fs generalizing r with
  | nil => simp [addHeaders]
  | cons f fs ih =>
    have hstep : r.addHeaders (f :: fs) = (r.addHeader f.1 f.2).addHeaders fs := rfl
    rw [hstep, ih, addHeader, Headers.lookup_insertNew, Option.or_assoc, List.find?_cons]
    by_cases hk : k = f.1
    · simp [hk]
    · have hb : (f.1 == k) = false := by simpa using Ne.symm hk
      simp [hk, hb]

theorem HttpResponse.addHeaders_frame (r : HttpResponse) (fs : List (ByteString × ByteString)) :
    (r.addHeaders fs).status = r.status ∧ (r.addHeaders fs).body = r.body := by
  induction fs generalizing r with
  | nil => exact ⟨rfl, rfl⟩
  | cons f fs ih => exact ih (r.addHeader f.1 f.2)

theorem find?_eq_some_of_nodup {α : Type*} [BEq α] [LawfulBEq α] {g : ByteString → α}
    {fs : List (ByteString × ByteString)} (hnodup : (fs.map fun f => g f.1).Nodup) (k : α)
    (v : ByteString) :
    (fs.find? fun f => g f.1 == k).map Prod.snd = some v ↔ ∃ f ∈ fs, g f.1 = k ∧ f.2 = v := by
  induction fs with
  | nil => simp
  | cons f fs ih =>
    rw [List.map_cons, List.nodup_cons] at hnodup
    rw [List.find?_cons]
    by_cases hk : g f.1 = k
    · have hrest : ∀ f' ∈ fs, g f'.1 ≠ k := by
        rintro f' hf' rfl
        exact hnodup.1 (List.mem_map.mpr ⟨f', hf', hk.symm⟩)
      simp only [hk, beq_self_eq_true, Option.map_some, Option.some.injEq, List.mem_cons]
      constructor
      · rintro rfl
        exact ⟨f, Or.inl rfl, hk, rfl⟩
      · rintro ⟨f', rfl | hf', hk', rfl⟩
        · rfl
        · exact absurd hk' (hrest f' hf')
    · have hb : (g f.1 == k) = false := by simpa using hk
      simp only [hb, ih hnodup.2, List.mem_cons]
      constructor
      · rintro ⟨f', hf', h⟩
        exact ⟨f', Or.inr hf', h⟩
      · rintro ⟨f', rfl | hf', hk', h⟩
        · exact absurd hk' hk
        · exact ⟨f', hf', hk', h⟩

def writtenLine (f : ByteString × ByteString) (h : Writable f) : FieldLine where
  name := f.1
  ows := [sp]
  value := f.2
  name_token := h.name_token
  ows_blank := by simp
  value_print := h.value_print
  value_head := h.value_head

/-- The header lines of a response, and what the parser enters for them. -/
theorem exists_lines (es : List (ByteString × ByteString)) (h : ∀ f ∈ es, Writable f) :
    ∃ ls, linesText ls = (es.map HttpResponse.headerLine).flatten ∧
      ls.map FieldLine.pair = es := by
  induction es with
  | nil => exact ⟨[], rfl, rfl⟩
  | cons f es ih =>
    obtain ⟨ls, htext, hpairs⟩ := ih fun g hg => h g (List.mem_cons_of_mem _ hg)
    refine ⟨writtenLine f (h f List.mem_cons_self) :: ls, ?_, by rw [List.map_cons, hpairs]; rfl⟩
    have hline : (writtenLine f (h f List.mem_cons_self)).bytes = HttpResponse.headerLine f := by
      simp [writtenLine, FieldLine.bytes, FieldLine.text, HttpResponse.headerLine, ascii, colon,
        sp]
    rw [List.map_cons, List.flatten_cons, ← htext, ← hline]
    rfl

def HttpResponse.respond (status : HttpStatus) (body : ByteString)
    (fs : List (ByteString × ByteString)) : HttpResponse :=
  ((({} : HttpResponse).setStatus status).setBody body).addHeaders fs

namespace HttpResponse

variable {status : HttpStatus} {body : ByteString} {fs : List (ByteString × ByteString)}

/-- The headers that `build` writes, in the order of the map. -/
def writtenHeaders (order : IterationOrder) (r : HttpResponse) :
    List (ByteString × ByteString) :=
  order.entries (build order r).2.headers

theorem mem_writtenHeaders (order : IterationOrder) (h : Sendable fs) (k v : ByteString) :
    (k, v) ∈ writtenHeaders order (respond status body fs) ↔ (k, v) ∈ fs ++ lengthField body := by
  have hnames : ((fs ++ lengthField body).map fun f => f.1).Nodup := by
    have hdistinct := h.distinct_append body
    have hmap : ((fs ++ lengthField body).map fun f => toLower f.1) =
        ((fs ++ lengthField body).map fun f => f.1).map toLower := by
      rw [List.map_map]
      rfl
    rw [hmap] at hdistinct
    exact hdistinct.of_map _
  have hlookup : (build order (respond status body fs)).2 =
      ((({} : HttpResponse).setStatus status).setBody body).addHeaders
        (fs ++ lengthField body) := by
    have hbody : (respond status body fs).body = body := (addHeaders_frame _ fs).2
    simp only [build, hbody]
    unfold lengthField
    split_ifs with hempty
    · rw [List.append_nil, respond]
    · simp [respond, addHeaders]
  have hfind := find?_eq_some_of_nodup (g := id) hnames k v
  simp only [id_eq] at hfind
  rw [writtenHeaders, order.mem_entries, hlookup, headers_addHeaders]
  have hempty : ((({} : HttpResponse).setStatus status).setBody body).headers.lookup k = none := by
    simp [setStatus, setBody]
  rw [hempty, Option.none_or, hfind]
  constructor
  · rintro ⟨f, hf, rfl, rfl⟩
    exact hf
  · exact fun hmem => ⟨(k, v), hmem, rfl, rfl⟩

theorem build_eq (order : IterationOrder) (r : HttpResponse) :
    (build order r).1 = statusLine r.status ++
      (((writtenHeaders order r).map headerLine).flatten ++ (crlf ++ r.body)) := by
  have hbody : (build order r).2.body = r.body := by
    simp only [build]
    split_ifs <;> rfl
  calc (build order r).1
      = statusLine r.status ++ ((writtenHeaders order r).map headerLine).flatten ++ crlf ++
          (build order r).2.body := rfl
    _ = _ := by rw [hbody, List.append_assoc, List.append_assoc]

theorem distinct_writtenHeaders (order : IterationOrder) (h : Sendable fs) :
    ((writtenHeaders order (respond status body fs)).map fun f => toLower f.1).Nodup := by
  have hperm : (writtenHeaders order (respond status body fs)).Perm (fs ++ lengthField body) :=
    (List.perm_ext_iff_of_nodup (order.nodup _) ((h.distinct_append body).of_map _)).mpr
      fun f => mem_writtenHeaders order h f.1 f.2
  exact (hperm.map _).nodup_iff.mpr (h.distinct_append body)

/-- The map that is read from the headers of a response and the length of its body. -/
theorem lookup_insertAll_fields {es : List (ByteString × ByteString)}
    (hdistinct : (es.map fun f => toLower f.1).Nodup)
    (hmem : ∀ k v, (k, v) ∈ es ↔ (k, v) ∈ fs ++ lengthField body) (k v : ByteString) :
    (Headers.insertAll ∅ es).lookup k = some v ↔
      (∃ f ∈ fs, toLower f.1 = k ∧ f.2 = v) ∨
        body ≠ [] ∧ k = ascii "content-length" ∧ v = toDecimal body.length := by
  rw [Headers.lookup_insertAll, Finmap.lookup_empty, Option.none_or,
    find?_eq_some_of_nodup hdistinct]
  constructor
  · rintro ⟨⟨n, w⟩, hf, rfl, rfl⟩
    rcases List.mem_append.mp ((hmem n w).mp hf) with hf | hf
    · exact Or.inl ⟨(n, w), hf, rfl, rfl⟩
    · obtain ⟨hbody, heq⟩ := mem_lengthField.mp hf
      obtain ⟨rfl, rfl⟩ := Prod.mk.inj heq
      exact Or.inr ⟨hbody, toLower_contentLength, rfl⟩
  · rintro (⟨⟨n, w⟩, hf, rfl, rfl⟩ | ⟨hbody, rfl, rfl⟩)
    · exact ⟨(n, w), (hmem n w).mpr (List.mem_append_left _ hf), rfl, rfl⟩
    · exact ⟨_, (hmem _ _).mpr (List.mem_append_right _ (mem_lengthField.mpr ⟨hbody, rfl⟩)),
        toLower_contentLength, rfl⟩

/-- What `build` writes behind the status line of a response, with headers or a body, is a
header block: it is read back without an error as the map of the lower-cased names and the
body's length, and the iterator stops on the CR LF CR LF in front of the body. -/
theorem build_parses (order : IterationOrder) (status : HttpStatus) (body : ByteString)
    (fs : List (ByteString × ByteString)) (h : Sendable fs) (hne : fs ≠ [] ∨ body ≠ []) :
    ∃ rest, (build order (respond status body fs)).1 = statusLine status ++ rest ∧
      ∀ m it last, slice m it last = rest →
        let block := (parseMessageHeader m last it ∅ none).1
        block.ec = none ∧
        (∀ k v, block.headers.lookup k = some v ↔
          (∃ f ∈ fs, toLower f.1 = k ∧ f.2 = v) ∨
            body ≠ [] ∧ k = ascii "content-length" ∧ v = toDecimal body.length) ∧
        block.it + 4 + body.length = last ∧ slice m (block.it + 4) last = body := by
  obtain ⟨hstatus, hbody⟩ : (respond status body fs).status = status ∧
      (respond status body fs).body = body := addHeaders_frame _ fs
  have hmem : ∀ k v, (k, v) ∈ writtenHeaders order (respond status body fs) ↔
      (k, v) ∈ fs ++ lengthField body := mem_writtenHeaders order h
  have hdistinct : ((writtenHeaders order (respond status body fs)).map
      fun f => toLower f.1).Nodup := distinct_writtenHeaders order h
  have hbuild := build_eq order (respond status body fs)
  rw [hstatus, hbody] at hbuild
  generalize writtenHeaders order (respond status body fs) = es at hmem hdistinct hbuild
  obtain ⟨ls, htext, hpairs⟩ : ∃ ls, linesText ls = (es.map headerLine).flatten ∧
      ls.map FieldLine.pair = es := by
    apply exists_lines es
    rintro ⟨k, v⟩ hf
    rcases List.mem_append.mp ((hmem k v).mp hf) with hf | hf
    · exact h.writable _ hf
    · exact writable_lengthField hf
  have hls : ls ≠ [] := by
    rintro rfl
    obtain rfl : [] = es := hpairs
    rcases hne with hfs | hbody'
    · obtain ⟨f, fs', rfl⟩ := List.exists_cons_of_ne_nil hfs
      exact List.not_mem_nil ((hmem f.1 f.2).mpr (by simp))
    · exact List.not_mem_nil ((hmem _ _).mpr
        (List.mem_append_right _ (mem_lengthField.mpr ⟨hbody', rfl⟩)))
  refine ⟨linesText ls ++ (crlf ++ body), by rw [hbuild, htext], ?_⟩
  intro m it last hslice
  have hl := congrArg List.length hslice
  have h2 := two_le_linesText hls
  have hcrlf : crlf.length = 2 := rfl
  simp only [length_slice, List.length_append, hcrlf] at hl
  rw [parseMessageHeader_of_block hls hslice ∅ none, hpairs]
  refine ⟨rfl, lookup_insertAll_fields hdistinct hmem, by dsimp only; omega, ?_⟩
  have hend := slice_suffix (s := linesText ls ++ crlf) (t := body)
    (by rw [hslice, List.append_assoc])
  dsimp only
  rwa [show last - (body.length + 4) + 4 = last - body.length by omega]

theorem build_parses_oneByte :
    ∃ rest, (build .byKey (respond .ok (ascii "x") [(ascii "Server", ascii "w")])).1 =
        statusLine .ok ++ rest ∧
      ∀ m it last, slice m it last = rest →
        let block := (parseMessageHeader m last it ∅ none).1
        block.ec = none ∧
        (∀ k v, block.headers.lookup k = some v ↔
          (∃ f ∈ [(ascii "Server", ascii "w")], toLower f.1 = k ∧ f.2 = v) ∨
            ascii "x" ≠ [] ∧ k = ascii "content-length" ∧ v = toDecimal (ascii "x").length) ∧
        block.it + 4 + (ascii "x").length = last ∧ slice m (block.it + 4) last = ascii "x" := by
  refine build_parses _ _ _ _ ⟨?_, ?_, ?_⟩ (Or.inl (by simp))
  · intro f hf
    obtain rfl := List.mem_singleton.mp hf
    exact ⟨by decide +kernel, by decide +kernel, by decide +kernel, by decide +kernel⟩
  · exact List.nodup_singleton _
  · intro f hf
    obtain rfl := List.mem_singleton.mp hf
    decide +kernel

end HttpResponse

end Webcrown.Http
