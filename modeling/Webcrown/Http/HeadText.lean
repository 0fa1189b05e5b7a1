import Webcrown.Http.HeaderSoundness
import Webcrown.Http.Reachability

/-!
# The text behind the request line

The header block of a first call as a function of the text `u` behind the request
line and of the memory `z` behind the chunk: its fields, whether it raises an error,
whether `parse` waits for the body, and the text behind it.
-/

namespace Webcrown.Http

open Bytes Common BlockText

def headFields (z : ℕ → UInt8) (u : ByteString) : List (ByteString × ByteString) :=
  if u.length < 2 then [] else (start.read u).fields ++ (start.read u).pos.lastFields z

def headHeaders (z : ℕ → UInt8) (u : ByteString) : Headers := Headers.insertAll ∅ (headFields z u)

def headType (z : ℕ → UInt8) (u : ByteString) : ContentType := headersContentType (headHeaders z u)

/-- `parse_message_header` sets an error on a block of which the chunk holds `u`. -/
def HeadError (z : ℕ → UInt8) (u : ByteString) : Prop :=
  u.length < 2 ∨ (start.read u).ec ≠ none ∨ ¬ SilentEnd z (start.read u).pos

/-- A positive `Content-Length`, and no byte behind the head. -/
def HeadWaits (z : ℕ → UInt8) (u : ByteString) : Prop :=
  (∃ v, (headHeaders z u).lookup (ascii "content-length") = some v ∧ 0 < atoi v) ∧
    ∀ rest, (start.read u).pos = .closed rest → rest = []

/-- The content behind the head is searched for an upload. -/
def Searches (z : ℕ → UInt8) (u : ByteString) : Prop :=
  (headType z u).takesMedia = true ∧
    (∃ v, (headHeaders z u).lookup (ascii "content-length") = some v) ∧ ¬ HeadWaits z u

theorem Searches.exists_contentType {z : ℕ → UInt8} {u : ByteString} (h : Searches z u) :
    ∃ w, (headHeaders z u).lookup (ascii "content-type") = some w := by
  cases hw : (headHeaders z u).lookup (ascii "content-type") with
  | none =>
    have := h.1
    rw [headType, headersContentType, hw] at this
    cases this
  | some w => exact ⟨w, rfl⟩

def contentText (u : ByteString) : ByteString :=
  match (start.read u).pos with
  | .closed rest => u.drop (u.length - (rest.length + 4))
  | _ => []

def Chunk.behind (c : Chunk) (k : ℕ) : UInt8 := c.stale (c.size + k)

theorem Chunk.memory_behind (c : Chunk) :
    (fun k => c.memory (c.size + k)) = c.behind := by
  funext k
  exact c.memory_of_le (Nat.le_add_right _ _)

section Block

variable {m : ℕ → UInt8} {last it : ℕ}

theorem fields_blockEnd (h : it ≤ last) (ec : ErrorCode) :
    (blockEnd m last it ec).fields = headFields (fun k => m (last + k)) (slice m it last) := by
  unfold blockEnd headFields
  have hl : (slice m it last).length < 2 ↔ it + 2 > last := by
    rw [length_slice]
    omega
  by_cases hs : it + 2 > last
  · rw [if_pos hs, if_pos (hl.mpr hs)]
  · rw [if_neg hs, if_neg fun hlt => hs (hl.mp hlt), fields_close, read_start_pos,
      read_start_fields]

theorem ec_blockEnd_eq_none (h : it ≤ last) :
    (blockEnd m last it none).ec = none ↔
      ¬ HeadError (fun k => m (last + k)) (slice m it last) := by
  have hec : (blockEnd m last it none).ec = (parseMessageHeader m last it ∅ none).1.ec := by
    rw [parseMessageHeader_eq_blockEnd]
  rw [hec, HeadError, length_slice]
  by_cases hs : it + 2 ≤ last
  · rw [parseMessageHeader_ec_eq_none ∅ hs]
    simp only [not_or, not_lt, not_not]
    constructor
    · exact fun h => ⟨by omega, h⟩
    · exact fun h => h.2
  · have hne : (parseMessageHeader m last it ∅ none).1.ec ≠ none := by
      simp [parseMessageHeader, show it + 2 > last by omega]
    exact iff_of_false hne fun h => h (Or.inl (by omega))

theorem it_blockEnd_closed {u rest : ByteString} (hu : slice m it last = u)
    (hpos : (start.read u).pos = .closed rest) (ec : ErrorCode) :
    (blockEnd m last it ec).it = last - (rest.length + 4) ∧
      slice m (last - (rest.length + 4)) last = contentText u ∧
      last - (rest.length + 4) + 4 + rest.length = last := by
  subst hu
  have hend := endsAs_read (slice m it last)
  rw [hpos] at hend
  obtain ⟨x, c, hx⟩ := hend
  have hl := congrArg List.length hx
  simp only [length_slice, List.length_append, List.length_cons, List.length_nil] at hl
  refine ⟨?_, ?_, by omega⟩
  · have hpos' := read_start_pos ec (slice m it last)
    rw [hpos] at hpos'
    rw [blockEnd, if_neg (by omega), close, hpos']
  · have hstart : it + (last - it - (rest.length + 4)) = last - (rest.length + 4) := by omega
    rw [contentText, hpos]
    dsimp only
    rw [length_slice, drop_slice, hstart]

theorem it_blockEnd_open {u : ByteString} (hu : slice m it last = u) (h : it ≤ last)
    (hpos : ∀ rest, (start.read u).pos ≠ .closed rest) (ec : ErrorCode) :
    last < (blockEnd m last it ec).it + 4 := by
  subst hu
  have htail : ∀ p fs ec, last < p + 4 → last < (lineTail m p fs ec).it + 4 := by
    intro p fs ec hp
    have := le_headerLineEnd m p ec
    unfold lineTail
    dsimp only
    split_ifs <;> omega
  unfold blockEnd
  split_ifs with hs
  · dsimp only
    omega
  · have hpos' := read_start_pos ec (slice m it last)
    rw [← hpos'] at hpos
    generalize read ⟨.name [], [], ec⟩ (slice m it last) = s at hpos ⊢
    obtain ⟨pos, fs, ec'⟩ := s
    unfold close
    cases pos with
    | name n =>
      dsimp only
      split_ifs
      · exact Nat.lt_add_of_pos_right (by omega)
      · exact htail _ _ _ (by omega)
    | blanks n => exact htail _ _ _ (by omega)
    | value n v => exact htail _ _ _ (by omega)
    | lineCr n v => exact htail _ _ _ (by omega)
    | lineEnd =>
      dsimp only
      split_ifs <;> omega
    | blankCr =>
      dsimp only
      split_ifs
      · show last < last - 3 + 4
        omega
      · exact htail _ _ _ (by omega)
    | closed rest => exact absurd rfl (hpos rest)

end Block

section Head

variable {t : ContentType} {c : Chunk} {n g u : ByteString}

theorem slice_rest (h : RequestLine c.bytes n g u) :
    slice c.memory (c.size - u.length) c.size = u ∧ u.length ≤ c.size := by
  obtain ⟨s, hs, -⟩ := h.rest
  have hmem := c.slice_memory
  rw [hs] at hmem
  refine ⟨slice_suffix hmem, ?_⟩
  rw [Chunk.size, hs, List.length_append]
  omega

theorem headers_headCursor (h : RequestLine c.bytes n g u) :
    (headCursor t c n g u).parser.headers = headHeaders c.behind u := by
  obtain ⟨hslice, -⟩ := slice_rest h
  have hf := fields_blockEnd (m := c.memory) (Nat.sub_le c.size u.length) none
  rw [hslice, c.memory_behind] at hf
  simp only [headCursor, Parser.headRead, BlockEnd.headers, hf]
  rfl

theorem type_headCursor (h : RequestLine c.bytes n g u) :
    (headCursor t c n g u).parser.headerContentType = headType c.behind u := by
  rw [headType, ← headers_headCursor (t := t) h]
  rfl

theorem ec_headCursor (h : RequestLine c.bytes n g u)
    (htype : (headType c.behind u).supported = true) :
    (headCursor t c n g u).ec = none ↔ ¬ HeadError c.behind u := by
  obtain ⟨hslice, -⟩ := slice_rest h
  have he := ec_blockEnd_eq_none (m := c.memory) (Nat.sub_le c.size u.length)
  rw [hslice, c.memory_behind] at he
  rw [← type_headCursor (t := t) h] at htype
  rw [← he]
  exact Eq.congr (if_pos htype) rfl

theorem awaitsBody_headCursor (h : RequestLine c.bytes n g u) :
    awaitsBody c.size (headCursor t c n g u) = true ↔ HeadWaits c.behind u := by
  obtain ⟨hslice, hle⟩ := slice_rest h
  have hend : c.size ≤ (headCursor t c n g u).it + 4 ↔
      ∀ rest, (start.read u).pos = .closed rest → rest = [] := by
    by_cases hclosed : ∃ rest, (start.read u).pos = .closed rest
    · obtain ⟨rest, hrest⟩ := hclosed
      obtain ⟨hit, -, hsum⟩ := it_blockEnd_closed hslice hrest none
      change c.size ≤ (blockEnd _ _ _ _).it + 4 ↔ _
      rw [hit, hrest]
      simp only [LinePos.closed.injEq, forall_eq']
      constructor
      · intro hle
        exact List.eq_nil_of_length_eq_zero (by omega)
      · rintro rfl
        simp only [List.length_nil] at hsum ⊢
        omega
    · simp only [not_exists] at hclosed
      have := it_blockEnd_open hslice (Nat.sub_le _ _) hclosed none
      refine iff_of_true this.le fun rest hrest => absurd hrest (hclosed rest)
  have hh := headers_headCursor (t := t) h
  rw [HeadWaits, ← hend, ← hh]
  simp only [awaitsBody]
  rw [show (headCursor t c n g u).parser.parsePhase = .parseContentTypeFinished from rfl]
  simp only [decide_true, Bool.true_and]
  cases (headCursor t c n g u).parser.headers.lookup (ascii "content-length") with
  | none => simp
  | some v => simp

/-- The cursor with which the opening boundary `b` is looked for. -/
def boundaryCursor (t : ContentType) (c : Chunk) (n g u b : ByteString) : Cursor :=
  { headCursor t c n g u with
    parser := { (headCursor t c n g u).parser with
      parsePhase := .parseMediaType
      boundaryValue := b } }

variable {w b : ByteString}

theorem parseMediaTypeBegin_headCursor (h : RequestLine c.bytes n g u)
    (hw : (headHeaders c.behind u).lookup (ascii "content-type") = some w)
    (hb : boundaryParameter w = some b) :
    parseMediaTypeBegin c.memory c.size (headCursor t c n g u) =
      parseOpeningBoundary c.memory c.size (boundaryCursor t c n g u b) :=
  parseMediaTypeBegin_eq ((congrArg _ (headers_headCursor h)).trans hw) hb

theorem print_boundary (h : RequestLine c.bytes n g u)
    (hw : (headHeaders c.behind u).lookup (ascii "content-type") = some w)
    (hb : boundaryParameter w = some b) : ∀ d ∈ b, isPrint d = true := by
  intro d hd
  rw [← headers_headCursor (t := .unknown) h] at hw
  exact print_headers (printValues_blockEnd c.memory c.size (c.size - u.length) none) hw d
    (mem_boundaryParameter hb hd)

/-- Behind a head that is not complete no boundary is looked for. -/
theorem parseOpeningBoundary_open (h : RequestLine c.bytes n g u)
    (hpos : ∀ rest, (start.read u).pos ≠ .closed rest) :
    parseOpeningBoundary c.memory c.size (boundaryCursor t c n g u b) =
      boundaryCursor t c n g u b := by
  unfold parseOpeningBoundary
  exact if_pos (it_blockEnd_open (slice_rest h).1 (Nat.sub_le _ _) hpos none)

theorem slice_boundaryCursor {rest : ByteString} (h : RequestLine c.bytes n g u)
    (hpos : (start.read u).pos = .closed rest) :
    (boundaryCursor t c n g u b).it + 4 ≤ c.size ∧
      slice c.memory (boundaryCursor t c n g u b).it c.size = contentText u := by
  obtain ⟨hit, hcontent, hsum⟩ := it_blockEnd_closed (slice_rest h).1 hpos none
  have hit' : (boundaryCursor t c n g u b).it = c.size - (rest.length + 4) := hit
  rw [hit']
  exact ⟨by omega, hcontent⟩

end Head

end Webcrown.Http
