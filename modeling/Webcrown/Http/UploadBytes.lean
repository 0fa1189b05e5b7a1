import Webcrown.Http.UploadRequest

/-!
# What is returned for an upload

The search of `parse_media_type_more` takes the closing line with the text in front
of it, so an upload is never returned as it was sent.
-/

namespace Webcrown.Http

open Bytes Common

/-- The call returns a request with this one upload. -/
def ReturnsUpload (p : Parser) (c : Chunk) (up : ByteString) (headers : Headers) : Prop :=
  ∃ q req, p.call c = .ok q ∧ q.request = some req ∧ req.uploads = [⟨up, headers⟩]

theorem not_mem_of_print {b : ByteString} (hprint : ∀ c ∈ b, isPrint c = true) {d : UInt8}
    (hd : isPrint d = false) : d ∉ b := by
  intro hmem
  rw [hprint d hmem] at hd
  cases hd

theorem find_closingLine {b x : ByteString} (hne : b ≠ []) (hdash : b.head? ≠ some dash)
    (hprint : ∀ c ∈ b, isPrint c = true) (hx : ¬ b <:+: x) :
    find b (x ++ closingLine b) = some (x.length + 4) := by
  obtain ⟨a, p, hp⟩ := List.exists_cons_of_ne_nil hne
  have hhead : b.head? = some a := by rw [hp]; rfl
  have ha : a ∉ [lf, dash, dash] := by
    have hlf : a ≠ lf := by
      rintro rfl
      exact not_mem_of_print hprint isPrint_lf (by rw [hp]; simp)
    have hd : a ≠ dash := by
      rintro rfl
      exact hdash hhead
    simp [hlf, hd]
  have hsplit : closingLine b = cr :: ([lf, dash, dash] ++ b ++ ([dash, dash] ++ crlf)) := by
    simp [closingLine, crlf]
  rw [hsplit, find_append_cons hne (not_mem_of_print hprint isPrint_cr) hx,
    find_append_of_head hhead ha]
  simp only [Option.map_some, List.length_cons, List.length_nil]
  congr 1
  omega

theorem uploadPart_closingLine {b x : ByteString} (hne : b ≠ []) (hdash : b.head? ≠ some dash)
    (hprint : ∀ c ∈ b, isPrint c = true) (hx : ¬ b <:+: x) :
    uploadPart b (x ++ closingLine b) = (x ++ closingLine b, true) := by
  have hdrop : (x ++ closingLine b).drop (x.length + 4) = (b ++ [dash, dash]) ++ crlf ++ [] := by
    have hsplit : x ++ closingLine b =
        (x ++ (crlf ++ [dash, dash])) ++ (b ++ ([dash, dash] ++ crlf)) := by
      simp [closingLine]
    have hl : (x ++ (crlf ++ [dash, dash])).length = x.length + 4 := by simp [crlf]
    rw [hsplit, ← hl, List.drop_left]
    simp
  have hline : find crlf ((b ++ [dash, dash]) ++ crlf ++ []) = some (b ++ [dash, dash]).length :=
    find_append_of_head rfl (by
      simp only [List.mem_append, not_or]
      exact ⟨not_mem_of_print hprint isPrint_cr, by decide⟩)
  have hlen : (x ++ closingLine b).length = x.length + 4 + (b ++ [dash, dash]).length + 2 := by
    simp [closingLine, crlf]
    omega
  rw [uploadPart, find_closingLine hne hdash hprint hx]
  dsimp only
  rw [hdrop, hline]
  dsimp only
  rw [← hlen, List.take_length]

namespace UploadRequest

/-- A boundary that starts with neither `=` nor `-` is searched for as it is. -/
theorem pattern_eq (r : UploadRequest) (heq : r.boundary.head? ≠ some 61)
    (hdash : r.boundary.head? ≠ some dash) : r.pattern = r.boundary := by
  obtain ⟨a, p, hp⟩ := List.exists_cons_of_ne_nil r.boundary_ne
  rw [hp] at heq hdash
  rw [pattern, hp]
  exact List.dropWhile_cons_of_neg
    (by simpa using ⟨fun h => heq (by simp [h]), fun h => hdash (by simp [h])⟩)

end UploadRequest

/-- An upload is never returned as it was sent: the closing line is returned with it,
or, where the boundary ends in `--`, its headers are lost. -/
theorem upload_ne_content (r : UploadRequest) (c : Chunk) (t : ContentType)
    (hc : c.bytes = r.bytes) (heq : r.boundary.head? ≠ some 61)
    (hdash : r.boundary.head? ≠ some dash) (htyped : r.Typed)
    (hfree : ¬ r.boundary <:+: r.content) :
    (¬[dash, dash] <:+ r.boundary → ReturnsUpload (Parser.fresh t) c
        (r.content ++ closingLine r.boundary) r.partHeaders) ∧
      ¬ ReturnsUpload (Parser.fresh t) c r.content r.partHeaders := by
  have hpattern := r.pattern_eq heq hdash
  have hne : r.pattern ≠ [] := hpattern ▸ r.boundary_ne
  rw [UploadRequest.bytes, List.append_assoc] at hc
  have hdata : r.data (r.content ++ closingLine r.boundary) = r.content ++ closingLine r.boundary :=
    if_pos htyped
  have hheaders : r.uploadHeaders = r.partHeaders := if_pos htyped
  have hpart := uploadPart_closingLine r.boundary_ne hdash (hpattern ▸ r.print_pattern) hfree
  have hlong : r.content ++ closingLine r.boundary ≠ r.content := by simp [closingLine, crlf]
  by_cases hdashes : [dash, dash] <:+ r.boundary
  · refine ⟨fun h => absurd hdashes h, ?_⟩
    rintro ⟨q, req, hq, hreq, huploads⟩
    obtain ⟨k, part, it, ranges, hk, hlost, hcall⟩ := r.call_dashes t hc hne (hpattern ▸ hdashes)
    rw [hcall, Except.ok.injEq] at hq
    rcases finishMedia_takePart k r.contentLength part it none ranges with
      ⟨-, -, hmore⟩ | ⟨-, -, hfin⟩
    · rw [← hq, hmore] at hreq
      cases hreq
    · rw [← hq, hfin, Option.some.injEq] at hreq
      rw [← hreq, hk, hlost] at huploads
      simp only [List.nil_append, List.cons.injEq, HttpFormUpload.mk.injEq, and_true] at huploads
      rw [UploadRequest.Typed, ← huploads.2] at htyped
      cases htyped
  · have hup : ReturnsUpload (Parser.fresh t) c (r.content ++ closingLine r.boundary)
        r.partHeaders := by
      obtain ⟨it, ranges, hcall⟩ := r.call_partHead t hc hne (hpattern ▸ hdashes)
      rw [hdata, if_neg (by simp [closingLine, crlf]), hpattern, hpart] at hcall
      rcases r.finishMedia_collector t [] (r.content ++ closingLine r.boundary, true) it ranges with
        ⟨hopen, -⟩ | ⟨-, -, hreq⟩
      · cases hopen
      · refine ⟨_, _, hcall, hreq, ?_⟩
        simp [UploadRequest.request, hheaders]
    refine ⟨fun _ => hup, ?_⟩
    rintro ⟨q, req, hq, hreq, huploads⟩
    obtain ⟨q', req', hq', hreq', huploads'⟩ := hup
    rw [hq, Except.ok.injEq] at hq'
    subst hq'
    rw [hreq, Option.some.injEq] at hreq'
    rw [← hreq', huploads] at huploads'
    simp only [List.cons.injEq, HttpFormUpload.mk.injEq, and_true] at huploads'
    exact hlong huploads'.symm

def uploadHead : RequestHead where
  method := ascii "POST"
  target := ascii "/"
  lines :=
    [⟨ascii "Content-Type", [sp], ascii "multipart/form-data; boundary=b",
      isValidToken_contentType, blank_sp, by decide +kernel, by decide +kernel⟩,
    ⟨ascii "Content-Length", [sp], ascii "34", isValidToken_contentLength, blank_sp,
      by decide +kernel, by decide +kernel⟩]
  method_ne := postMethod_ne_nil
  method_alpha := isAlpha_postMethod
  target_ne := rootTarget_ne_nil
  target_path := isPathchar_rootTarget
  lines_ne := by simp
  lines_named := by decide +kernel

def byteUpload : UploadRequest where
  head := uploadHead
  parameters := [sp]
  boundary := ascii "b"
  part := [⟨ascii "Content-Type", [sp], ascii "a", isValidToken_contentType, blank_sp,
    isPrint_letter, head?_letter_ne_sp⟩]
  content := ascii "c"
  contentLength := ascii "34"
  boundary_ne := by decide +kernel
  part_ne := by simp
  type_field := by decide +kernel
  type_first := by decide +kernel
  length_field := by decide +kernel
  length_eq := by decide +kernel

def byteUploadChunk : Chunk := ⟨byteUpload.bytes, fun _ => 0, by decide +kernel⟩

theorem upload_ne_content_byteUpload :
    (¬[dash, dash] <:+ byteUpload.boundary → ReturnsUpload (Parser.fresh .unknown) byteUploadChunk
        (byteUpload.content ++ closingLine byteUpload.boundary) byteUpload.partHeaders) ∧
      ¬ ReturnsUpload (Parser.fresh .unknown) byteUploadChunk byteUpload.content
        byteUpload.partHeaders :=
  upload_ne_content byteUpload byteUploadChunk .unknown rfl (by decide +kernel)
    (by decide +kernel) (by decide +kernel) (by decide +kernel)

/-- One byte is sent, and ten are returned. -/
theorem byteUpload_returns_closingLine :
    ¬ ∀ (r : UploadRequest) (c : Chunk) (t : ContentType), c.bytes = r.bytes →
      r.boundary.head? ≠ some 61 → r.boundary.head? ≠ some dash → r.Typed →
      ¬ r.boundary <:+: r.content →
      ReturnsUpload (Parser.fresh t) c r.content r.partHeaders := by
  intro hall
  obtain ⟨q, req, hq, hreq, huploads⟩ := hall byteUpload byteUploadChunk .unknown rfl
    (by decide +kernel) (by decide +kernel) (by decide +kernel) (by decide +kernel)
  have hrun : ((Parser.fresh .unknown).call byteUploadChunk).toOption.bind
      (fun r => r.request.map fun req => req.uploads.map HttpFormUpload.bytes) =
        some [ascii "c\r\n--b--\r\n"] := by
    decide +kernel
  rw [hq] at hrun
  simp only [Except.toOption, Option.bind_some, hreq, Option.map_some, huploads, List.map_cons,
    List.map_nil] at hrun
  exact absurd hrun (by decide +kernel)

end Webcrown.Http
