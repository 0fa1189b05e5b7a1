import Webcrown.Http.OpeningBoundary

/-!
# Reachable parsers

What holds of every parser between two calls: it is fresh, or its type is one that
`parse_start_line` has rejected when it stands behind the head, or it collects an
upload with a printable boundary.
-/

namespace Webcrown.Http

open Bytes Common BlockText

def PrintValues (fs : List (ByteString × ByteString)) : Prop :=
  ∀ f ∈ fs, ∀ c ∈ f.2, isPrint c = true

theorem printValues_append {fs gs : List (ByteString × ByteString)} :
    PrintValues (fs ++ gs) ↔ PrintValues fs ∧ PrintValues gs :=
  List.forall_mem_append

def LinePos.pending : LinePos → ByteString
  | .value _ v => v
  | .lineCr _ v => v
  | _ => []

namespace BlockText

def Printable (s : BlockText) : Prop :=
  PrintValues s.fields ∧ ∀ c ∈ s.pos.pending, isPrint c = true

theorem printable_byte {s : BlockText} (c : UInt8) (h : s.Printable) : (s.byte c).Printable := by
  obtain ⟨pos, fs, ec⟩ := s
  obtain ⟨hfs, hpos⟩ := h
  have hadd : ∀ n, PrintValues (fs ++ [(n, [])]) := fun n =>
    printValues_append.mpr ⟨hfs, by simp [PrintValues]⟩
  have hvalue : ∀ (p : LinePos) n v ec, (∀ d ∈ v, isPrint d = true) →
      (valueByte ⟨p, fs, ec⟩ n v c).Printable := by
    intro p n v ec hv
    unfold valueByte
    split_ifs with hcr hprint
    · exact ⟨hfs, hv⟩
    · refine ⟨hfs, fun d hd => ?_⟩
      rcases List.mem_append.mp hd with hd | hd
      · exact hv d hd
      · rwa [List.mem_singleton.mp hd]
    · exact ⟨hadd n, by simp [LinePos.pending]⟩
  have hblank : ∀ (p : LinePos) n ec, (blankByte ⟨p, fs, ec⟩ n c).Printable := by
    intro p n ec
    unfold blankByte
    split_ifs
    · exact ⟨hfs, by simp [LinePos.pending]⟩
    · exact hvalue _ _ _ _ (by simp)
  have hname : ∀ (p : LinePos) n ec, (nameByte ⟨p, fs, ec⟩ n c).Printable := by
    intro p n ec
    unfold nameByte
    split_ifs
    · exact ⟨hfs, by simp [LinePos.pending]⟩
    · exact ⟨hfs, by simp [LinePos.pending]⟩
    · exact hblank _ _ _
  have hcr : ∀ (p : LinePos) n v ec, (∀ d ∈ v, isPrint d = true) →
      (crByte ⟨p, fs, ec⟩ n v c).Printable := by
    intro p n v ec hv
    unfold crByte
    split_ifs
    · refine ⟨printValues_append.mpr ⟨hfs, ?_⟩, by simp [LinePos.pending]⟩
      simpa [PrintValues] using hv
    · exact ⟨hadd n, by simp [LinePos.pending]⟩
  cases pos with
  | name n => exact hname _ _ _
  | blanks n => exact hblank _ _ _
  | value n v => exact hvalue _ _ _ _ hpos
  | lineCr n v => exact hcr _ _ _ _ hpos
  | lineEnd =>
    simp only [byte]
    split_ifs
    · exact ⟨hfs, by simp [LinePos.pending]⟩
    · exact hname _ _ _
  | blankCr =>
    simp only [byte]
    split_ifs
    · exact ⟨hfs, by simp [LinePos.pending]⟩
    · exact hcr _ _ _ _ (by simp)
  | closed rest => exact ⟨hfs, by simp [byte, LinePos.pending]⟩

theorem printable_read {s : BlockText} (t : ByteString) (h : s.Printable) :
    (s.read t).Printable := by
  induction t generalizing s with
  | nil => exact h
  | cons c t ih => exact ih (printable_byte c h)

end BlockText

theorem printValues_blockEnd (m : ℕ → UInt8) (last it : ℕ) (ec : ErrorCode) :
    PrintValues (blockEnd m last it ec).fields := by
  unfold blockEnd
  split_ifs
  · simp [PrintValues]
  · obtain ⟨hfs, hpos⟩ := printable_read (s := ⟨.name [], [], ec⟩) (slice m it last)
      ⟨by simp [PrintValues], by simp [LinePos.pending]⟩
    rw [fields_close, printValues_append]
    refine ⟨hfs, ?_⟩
    revert hpos
    cases (read ⟨.name [], [], ec⟩ (slice m it last)).pos <;>
      simp only [LinePos.lastFields, LinePos.pending] <;> intro hpos <;> (try split_ifs) <;>
      simp_all [PrintValues]

theorem print_headers {e : BlockEnd} (he : PrintValues e.fields) {name v : ByteString}
    (hv : e.headers.lookup name = some v) : ∀ c ∈ v, isPrint c = true := by
  rw [BlockEnd.headers, Headers.lookup_insertAll, Finmap.lookup_empty, Option.none_or] at hv
  obtain ⟨f, hf, rfl⟩ := Option.map_eq_some_iff.mp hv
  exact he f (List.mem_of_find?_eq_some hf)

theorem headersContentType_of_unsupported {hs : Headers}
    (h : (headersContentType hs).supported = false) : headersContentType hs = .unknown := by
  revert h
  unfold headersContentType contentTypeOf
  dsimp only
  split
  · decide
  · split_ifs <;> decide

/-- The cursor of a first call behind the head: request line of `n` and `g`, then `u`. -/
def headCursor (t : ContentType) (c : Chunk) (n g u : ByteString) : Cursor :=
  let e := blockEnd c.memory c.size (c.size - u.length) none
  ⟨(Parser.fresh t).headRead n g e, e.it,
    if e.contentType.supported then e.ec else some .contentTypeNotImplemented, []⟩

theorem Parser.call_of_requestLine {c : Chunk} {n g u : ByteString} (t : ContentType)
    (h : RequestLine c.bytes n g u) :
    (Parser.fresh t).call c =
      if awaitsBody c.size (headCursor t c n g u) then
        .ok ⟨{ (headCursor t c n g u).parser with parsePhase := .parseBodyPending },
          (headCursor t c n g u).ec, [], none⟩
      else parseContent c.memory c.size (headCursor t c n g u) := by
  have hsize : c.size ≠ 0 := by
    obtain ⟨s, hs, hl⟩ := h.rest
    rw [Chunk.size, hs, List.length_append]
    omega
  have henter := @enter_of_requestLine c.memory c.size (Parser.fresh t) n g u rfl rfl
    (by rwa [Chunk.slice_memory])
  rw [call, parse_eq, if_neg (fun he => hsize he.2), henter]
  rfl

theorem it_headCursor_le (t : ContentType) (c : Chunk) (n g u : ByteString) :
    (headCursor t c n g u).it ≤ c.size + 3 := by
  have := it_blockEnd_le c.memory c.size (c.size - u.length) none
  simp only [headCursor]
  omega

section Begin

variable {m : ℕ → UInt8} {last : ℕ}

/-- `parse_media_type_begin` behind a head takes a printable boundary and leaves the
iterator at most a few cells behind the chunk. -/
theorem parseMediaTypeBegin_spec {s : Cursor} (hvalue : s.parser.boundaryValue = [])
    (hlength : s.parser.boundaryValueLength = 0)
    (hprint : ∀ name v, s.parser.headers.lookup name = some v → ∀ c ∈ v, isPrint c = true)
    (hit : s.it ≤ last + 3) :
    (parseMediaTypeBegin m last s).parser.BoundaryOk ∧
      (parseMediaTypeBegin m last s).it ≤ last + 8 := by
  have hnone : s.parser.BoundaryOk := by constructor <;> simp [hvalue, hlength]
  cases hv : s.parser.headers.lookup (ascii "content-type") with
  | none =>
    simp only [parseMediaTypeBegin, hv]
    exact ⟨⟨hnone.1, hnone.2, hnone.3⟩, by omega⟩
  | some v =>
    cases hb : boundaryParameter v with
    | none =>
      simp only [parseMediaTypeBegin, hv, hb]
      exact ⟨⟨hnone.1, hnone.2, hnone.3⟩, by omega⟩
    | some b =>
      have hdash := head_boundaryParameter hb
      have hbprint : ∀ c ∈ b, isPrint c = true := fun c hc =>
        hprint _ v hv c (mem_boundaryParameter hb hc)
      rw [parseMediaTypeBegin_eq hv hb]
      set s' : Cursor := { s with
        parser := { s.parser with parsePhase := .parseMediaType, boundaryValue := b } } with hs'
      rcases Nat.lt_or_ge last (s.it + 4) with hlt | hge
      · have hsame : parseOpeningBoundary m last s' = s' := by
          unfold parseOpeningBoundary
          exact if_pos hlt
        rw [hsame]
        exact ⟨⟨by simp [hs', hlength], hdash, hbprint⟩, by simp only [hs']; omega⟩
      · obtain ⟨hval, hlen, hk⟩ := parseOpeningBoundary_spec (s := s') rfl hdash hbprint hge rfl
        exact ⟨⟨by rw [hval, hlen], by rwa [hval], by rwa [hval]⟩, by omega⟩

end Begin

theorem headCursor_media {t : ContentType} {c : Chunk} {n g u : ByteString} {r : CallResult}
    (htype : (headCursor t c n g u).parser.headerContentType.takesMedia = true)
    (hr : parseContent c.memory c.size (headCursor t c n g u) = .ok r) :
    r.parser.Idle ∨ ∃ v, Searching r.parser v r.parser.pattern r.parser.bufferSizeReaded := by
  set s := headCursor t c n g u with hs
  obtain ⟨k, hk⟩ : ∃ k, parseMediaTypeBegin c.memory c.size s = k := ⟨_, rfl⟩
  obtain ⟨hok, hit⟩ := @parseMediaTypeBegin_spec c.memory c.size s rfl rfl
    (fun name v hv => print_headers (printValues_blockEnd _ _ _ _) hv)
    (it_headCursor_le t c n g u)
  have hframe := (@parseMediaTypeBegin_frame c.memory c.size s).2
  have hbegun := @parsePhase_parseMediaTypeBegin c.memory c.size s
  rw [hk] at hok hit hframe hbegun
  have hbuf : k.parser.bufferSizeReaded = 0 := hframe.bufferSizeReaded
  cases hcl : k.parser.headers.lookup (ascii "content-length") with
  | none =>
    rw [parseContent_media_of_none hk rfl htype hcl, Except.ok.injEq] at hr
    subst hr
    left
    rcases hbegun with h | h | h <;> simp [Parser.Idle, h]
  | some v =>
    rcases lt_trichotomy k.it c.size with hlt | he | hgt
    · have hmax : c.size ≤ maxSize := c.size_le
      obtain ⟨part, hpart⟩ : ∃ part, uploadPart k.parser.pattern (slice c.memory k.it c.size) =
        part := ⟨_, rfl⟩
      have hpartlen := (uploadPart_isPrefix k.parser.pattern (slice c.memory k.it c.size)).length_le
      rw [hpart, length_slice] at hpartlen
      have hsum : k.parser.bufferSizeReaded + part.1.length ≤ maxSize := by omega
      rw [parseContent_media_part hk rfl htype hcl hok hlt hpart hsum, Except.ok.injEq] at hr
      rcases finishMedia_takePart k.parser v part (k.it + part.1.length) k.ec
          (k.ranges ++ [(k.it, k.it + part.1.length)]) with ⟨-, -, hmore⟩ | ⟨-, hfin, -⟩
      · rw [hmore] at hr
        subst hr
        exact Or.inr ⟨v, rfl, hcl, ⟨hok.1, hok.2, hok.3⟩, rfl, le_rfl, hsum⟩
      · rw [hr] at hfin
        exact Or.inl (Parser.idle_of_finished hfin)
    · rw [parseContent_media_at_end hk rfl htype hcl he, Except.ok.injEq] at hr
      subst hr
      exact Or.inr ⟨v, rfl, hcl, ⟨hok.1, hok.2, hok.3⟩, rfl, le_rfl, by simp [hbuf]⟩
    · obtain ⟨s'', herr⟩ := parseMediaTypeMore_overrun c.memory hcl hgt hit hbuf
      rw [parseContent_media rfl htype, hk, herr] at hr
      cases hr

theorem parseContent_unknown {m : ℕ → UInt8} {last : ℕ} {s : Cursor}
    (hphase : s.parser.parsePhase = .parseContentTypeFinished)
    (htype : s.parser.headerContentType = .unknown) :
    parseContent m last s = .ok ⟨s.parser, s.ec, s.ranges, none⟩ := by
  simp [parseContent, hphase, htype, ContentType.takesBody, ContentType.takesMedia, bind,
    Except.bind, parseMedia, finishMedia]

namespace Parser

/-- What holds between two calls. -/
structure Inv (p : Parser) : Prop where
  fresh : p.parsePhase = .notStarted → ∃ t, p = Parser.fresh t
  rejected : p.parsePhase = .parseContentTypeFinished → p.headerContentType = .unknown
  settled : p.parsePhase ≠ .parseMediaTypeFinished
  collecting : p.parsePhase = .parseMediaTypeNeedMore →
    ∃ v, Searching p v p.pattern p.bufferSizeReaded

theorem Idle.inv {p : Parser} (h : p.Idle) : p.Inv := by
  obtain ⟨h1, h2, h3, h4, h5⟩ := h
  exact ⟨fun h => absurd h h1, fun h => absurd h h2, h5, fun h => absurd h h4⟩

theorem inv_of_pending {p : Parser} (h : p.parsePhase = .parseBodyPending) : p.Inv := by
  constructor <;> simp [h]

theorem inv_fresh (t : ContentType) : (Parser.fresh t).Inv := by
  constructor <;> simp [Parser.fresh]

theorem inv_call_fresh {t : ContentType} {c : Chunk} {r : CallResult} (hc : c.bytes ≠ [])
    (hr : (Parser.fresh t).call c = .ok r) : r.parser.Inv := by
  by_cases hline : ∃ n g u, RequestLine c.bytes n g u
  · obtain ⟨n, g, u, hline⟩ := hline
    rw [call_of_requestLine t hline] at hr
    split_ifs at hr
    · cases hr
      exact inv_of_pending rfl
    · cases hsupp : (headCursor t c n g u).parser.headerContentType.supported with
      | false =>
        have hunknown := headersContentType_of_unsupported hsupp
        rw [parseContent_unknown rfl hunknown, Except.ok.injEq] at hr
        subst hr
        exact ⟨by simp [headCursor, headRead], fun _ => hunknown,
          by simp [headCursor, headRead], by simp [headCursor, headRead]⟩
      | true =>
        rcases ContentType.takesBody_or_takesMedia hsupp with hbody | hmedia
        · rw [parseContent_body (Or.inl rfl) hbody] at hr
          unfold parseBody at hr
          dsimp only at hr
          split_ifs at hr
          cases hr
          exact (idle_of_finished rfl).inv
        · rcases headCursor_media hmedia hr with hidle | ⟨v, hsearch⟩
          · exact hidle.inv
          · exact ⟨by simp [hsearch.phase], by simp [hsearch.phase], by simp [hsearch.phase],
              fun _ => ⟨v, hsearch⟩⟩
  · simp only [not_exists] at hline
    obtain ⟨s, -, -, hidle, hcall⟩ := call_of_not_requestLine (p := Parser.fresh t) rfl hc hline
    rw [hcall, Except.ok.injEq] at hr
    subst hr
    exact hidle.inv

/-- Every call that returns keeps the invariant. -/
theorem Inv.call {p : Parser} {c : Chunk} {r : CallResult} (h : p.Inv)
    (hr : p.call c = .ok r) : r.parser.Inv := by
  by_cases hidle : p.Idle
  · rw [call_idle hidle, Except.ok.injEq] at hr
    subst hr
    exact h
  have hphase : p.parsePhase = .notStarted ∨ p.parsePhase = .parseContentTypeFinished ∨
      p.parsePhase = .parseBodyPending ∨ p.parsePhase = .parseMediaTypeNeedMore := by
    have := h.settled
    by_contra hne
    simp only [not_or] at hne
    exact hidle ⟨hne.1, hne.2.1, hne.2.2.1, hne.2.2.2, this⟩
  rcases hphase with hphase | hphase | hphase | hphase
  · obtain ⟨t, rfl⟩ := h.fresh hphase
    rcases eq_or_ne c.bytes [] with hnil | hne
    · have hsize : c.size = 0 := by simp [Chunk.size, hnil]
      rw [Parser.call, parse_eq, if_pos ⟨hphase, hsize⟩, Except.ok.injEq] at hr
      subst hr
      exact h
    · exact inv_call_fresh hne hr
  · have hunknown := h.rejected hphase
    have henter : p.enter c.memory c.size none = ⟨p, 0, none, []⟩ := by simp [enter, hphase]
    rw [Parser.call, parse_eq, if_neg (by simp [hphase]), henter] at hr
    split_ifs at hr
    · cases hr
      exact inv_of_pending rfl
    · rw [parseContent_unknown hphase hunknown, Except.ok.injEq] at hr
      subst hr
      exact h
  · cases hbody : p.headerContentType.takesBody with
    | true =>
      rw [call_pending_body c hphase hbody, Except.ok.injEq] at hr
      subst hr
      exact (idle_of_finished rfl).inv
    | false =>
      rw [call_pending_media c hphase hbody, Except.ok.injEq] at hr
      subst hr
      exact h
  · obtain ⟨v, hsearch⟩ := h.collecting hphase
    rcases hsearch.call hr with ⟨-, hnext⟩ | ⟨hfin, -⟩
    · exact ⟨by simp [hnext.phase], by simp [hnext.phase], by simp [hnext.phase],
        fun _ => ⟨v, hnext.phase, hnext.contentLength, hnext.boundary, rfl, le_rfl,
          hnext.readed_le_max⟩⟩
    · exact (idle_of_finished hfin).inv

end Parser

theorem Reachable.inv {p : Parser} (h : Reachable p) : p.Inv :=
  h.invariant Parser.inv_fresh fun _ _ _ hp hr => hp.call hr

end Webcrown.Http
