import Webcrown.Http.BlockText

/-!
# The grammar of header blocks

A header line is `field-name ":" OWS field-value CR LF`. The byte machine reads a
list of such lines into exactly their names and values, and a state it reaches
without an error describes the text read so far. Both directions together say
which blocks `parse_message_header` accepts.
-/

namespace Webcrown.Http

open Bytes Common BlockText

/-- A header line without its CR LF. The name may be empty: the scanner does not ask. -/
structure FieldLine where
  name : ByteString
  ows : ByteString
  value : ByteString
  name_token : ∀ c ∈ name, isValidToken c = true
  ows_blank : ∀ c ∈ ows, c = sp ∨ c = tab
  value_print : ∀ c ∈ value, isPrint c = true
  value_head : value.head? ≠ some sp

namespace FieldLine

def text (l : FieldLine) : ByteString := l.name ++ colon :: (l.ows ++ l.value)

def bytes (l : FieldLine) : ByteString := l.text ++ crlf

def pair (l : FieldLine) : ByteString × ByteString := (l.name, l.value)

theorem text_ne_nil (l : FieldLine) : l.text ≠ [] := by simp [text]

theorem not_blank_of_value {l : FieldLine} {c : UInt8} {v : ByteString} (h : l.value = c :: v) :
    ¬(c = sp ∨ c = tab) := by
  rintro (rfl | rfl)
  · exact l.value_head (by simp [h])
  · have := l.value_print tab (by simp [h])
    rw [isPrint_tab] at this
    cases this

theorem head_text_ne_cr (l : FieldLine) {c : UInt8} {t : ByteString} (h : l.text = c :: t) :
    c ≠ cr := by
  rintro rfl
  cases hn : l.name with
  | nil =>
    rw [text, hn] at h
    exact absurd (List.head_eq_of_cons_eq h) (by decide)
  | cons d n =>
    rw [text, hn] at h
    have hd : d = cr := List.head_eq_of_cons_eq h
    have := l.name_token cr (by simp [hn, hd])
    simp at this

end FieldLine

def linesText (ls : List FieldLine) : ByteString := ls.flatMap FieldLine.bytes

@[simp] theorem linesText_nil : linesText [] = [] := rfl

theorem linesText_append (ls ls' : List FieldLine) :
    linesText (ls ++ ls') = linesText ls ++ linesText ls' :=
  List.flatMap_append

theorem linesText_singleton (l : FieldLine) : linesText [l] = l.bytes := by simp [linesText]

namespace BlockText

/-- A line up to its value, read from the start of the line. -/
theorem read_text (l : FieldLine) (fs ec) :
    read ⟨.name [], fs, ec⟩ l.text =
      ⟨if l.value = [] then .blanks l.name else .value l.name l.value, fs, ec⟩ := by
  have hcolon : byte ⟨.name l.name, fs, ec⟩ colon = ⟨.blanks l.name, fs, ec⟩ := by
    simp [byte, nameByte]
  rw [FieldLine.text, read_append, read_tokens l.name_token, List.nil_append, read_cons, hcolon,
    read_append, read_blanks l.ows_blank]
  cases hv : l.value with
  | nil => simp
  | cons c v =>
    rw [read_value_of_blanks (FieldLine.not_blank_of_value hv), read_printable]
    · simp
    · exact hv ▸ l.value_print

theorem read_text_cr (l : FieldLine) (fs ec) :
    read ⟨.name [], fs, ec⟩ (l.text ++ [cr]) = ⟨.lineCr l.name l.value, fs, ec⟩ := by
  rw [read_append, read_text]
  by_cases hv : l.value = [] <;>
    simp [hv, byte, blankByte, valueByte, show cr ≠ sp by decide, show cr ≠ tab by decide]

theorem read_text_of_lineEnd (l : FieldLine) (t : ByteString) (fs ec) :
    read ⟨.lineEnd, fs, ec⟩ (l.text ++ t) = read ⟨.name [], fs, ec⟩ (l.text ++ t) := by
  obtain ⟨c, u, hc⟩ := List.exists_cons_of_ne_nil l.text_ne_nil
  have hbyte : byte ⟨.lineEnd, fs, ec⟩ c = byte ⟨.name [], fs, ec⟩ c := by
    simp [byte, l.head_text_ne_cr hc, nameByte, blankByte, valueByte]
  rw [hc, List.cons_append, read_cons, read_cons, hbyte]

theorem read_bytes (l : FieldLine) (fs ec) :
    read ⟨.name [], fs, ec⟩ l.bytes = ⟨.lineEnd, fs ++ [l.pair], ec⟩ := by
  have h : l.bytes = l.text ++ [cr] ++ [lf] := by simp [FieldLine.bytes, crlf]
  rw [h, read_append, read_text_cr]
  simp [byte, crByte, FieldLine.pair]

theorem read_lines_of_lineEnd (ls : List FieldLine) (fs ec) :
    read ⟨.lineEnd, fs, ec⟩ (linesText ls) = ⟨.lineEnd, fs ++ ls.map FieldLine.pair, ec⟩ := by
  induction ls generalizing fs with
  | nil => simp
  | cons l ls ih =>
    change read _ (l.bytes ++ linesText ls) = _
    rw [read_append, FieldLine.bytes, read_text_of_lineEnd, ← FieldLine.bytes, read_bytes, ih]
    simp

theorem read_lines {ls : List FieldLine} (h : ls ≠ []) (fs ec) :
    read ⟨.name [], fs, ec⟩ (linesText ls) = ⟨.lineEnd, fs ++ ls.map FieldLine.pair, ec⟩ := by
  obtain ⟨l, ls, rfl⟩ := List.exists_cons_of_ne_nil h
  change read _ (l.bytes ++ linesText ls) = _
  rw [read_append, read_bytes, read_lines_of_lineEnd]
  simp

theorem read_block {ls : List FieldLine} (h : ls ≠ []) (rest : ByteString) (ec) :
    read ⟨.name [], [], ec⟩ (linesText ls ++ (crlf ++ rest)) =
      ⟨.closed rest, ls.map FieldLine.pair, ec⟩ := by
  have hempty : read ⟨.lineEnd, ls.map FieldLine.pair, ec⟩ crlf =
      ⟨.closed [], ls.map FieldLine.pair, ec⟩ := by
    simp [crlf, byte]
  rw [read_append, read_lines h, List.nil_append, read_append, hempty, read_closed,
    List.nil_append]

theorem read_lines_text (ls : List FieldLine) (l : FieldLine) (t : ByteString) (ec) :
    read ⟨.name [], [], ec⟩ (linesText ls ++ (l.text ++ t)) =
      read ⟨.name [], ls.map FieldLine.pair, ec⟩ (l.text ++ t) := by
  rcases eq_or_ne ls [] with rfl | h
  · simp
  · rw [read_append, read_lines h, List.nil_append, read_text_of_lineEnd]

/-- What the text read so far looks like in a state reached without an error. -/
def Describes (t : ByteString) : LinePos → Prop
  | .name n => ∃ ls, t = linesText ls ++ n ∧ (∀ c ∈ n, isValidToken c = true) ∧
      (n = [] → ls = [])
  | .blanks n => ∃ ls, ∃ l : FieldLine, t = linesText ls ++ l.text ∧ l.name = n ∧ l.value = []
  | .value n v => ∃ ls, ∃ l : FieldLine,
      t = linesText ls ++ l.text ∧ l.name = n ∧ l.value = v ∧ v ≠ []
  | .lineCr n v => ∃ ls, ∃ l : FieldLine,
      t = linesText ls ++ (l.text ++ [cr]) ∧ l.name = n ∧ l.value = v
  | .lineEnd => ∃ ls, ls ≠ [] ∧ t = linesText ls
  | .blankCr => ∃ ls, ls ≠ [] ∧ t = linesText ls ++ [cr]
  | .closed rest => ∃ ls, ls ≠ [] ∧ t = linesText ls ++ (crlf ++ rest)

theorem ec_byte {s : BlockText} {c : UInt8} (h : (s.byte c).ec = none) : s.ec = none := by
  revert h
  obtain ⟨pos, fs, ec⟩ := s
  cases pos <;> simp only [byte, nameByte, blankByte, valueByte, crByte, imp_self] <;>
    split_ifs <;> simp

theorem describes_nameByte {t n : ByteString} {ls : List FieldLine} {fs ec c}
    (ht : t = linesText ls ++ n) (hn : ∀ c ∈ n, isValidToken c = true)
    (hec : (nameByte ⟨.name n, fs, ec⟩ n c).ec = none) :
    Describes (t ++ [c]) (nameByte ⟨.name n, fs, ec⟩ n c).pos := by
  unfold nameByte at hec ⊢
  split_ifs at hec ⊢ with hcol htok
  · refine ⟨ls, ⟨n, [], [], hn, by simp, by simp, by simp⟩, ?_, rfl, rfl⟩
    simp [FieldLine.text, ht, hcol]
  · refine ⟨ls, by simp [ht], ?_, by simp⟩
    intro d hd
    rcases List.mem_append.mp hd with hd | hd
    · exact hn d hd
    · simpa [List.mem_singleton.mp hd] using htok
  · unfold blankByte valueByte at hec
    split_ifs at hec

theorem describes_valueByte {t : ByteString} {ls : List FieldLine} {l : FieldLine} {c}
    (pos : LinePos) (fs ec) (ht : t = linesText ls ++ l.text) (hblank : l.value = [] → c ≠ sp)
    (hec : (valueByte ⟨pos, fs, ec⟩ l.name l.value c).ec = none) :
    Describes (t ++ [c]) (valueByte ⟨pos, fs, ec⟩ l.name l.value c).pos := by
  unfold valueByte at hec ⊢
  split_ifs at hec ⊢ with hcr hprint
  · exact ⟨ls, l, by simp [ht, hcr], rfl, rfl⟩
  · have hv : ∀ d ∈ l.value ++ [c], isPrint d = true := by
      intro d hd
      rcases List.mem_append.mp hd with hd | hd
      · exact l.value_print d hd
      · simpa [List.mem_singleton.mp hd] using hprint
    have hhead : (l.value ++ [c]).head? ≠ some sp := by
      cases hl : l.value with
      | nil => simpa using hblank hl
      | cons d v =>
        have := l.value_head
        rw [hl] at this
        simpa using this
    refine ⟨ls, ⟨l.name, l.ows, l.value ++ [c], l.name_token, l.ows_blank, hv, hhead⟩, ?_, rfl,
      rfl, by simp⟩
    simp [FieldLine.text, ht]

theorem describes_crByte {t : ByteString} {ls : List FieldLine} {l : FieldLine} {fs ec c}
    {pos : LinePos} (ht : t = linesText ls ++ (l.text ++ [cr]))
    (hec : (crByte ⟨pos, fs, ec⟩ l.name l.value c).ec = none) :
    Describes (t ++ [c]) (crByte ⟨pos, fs, ec⟩ l.name l.value c).pos := by
  unfold crByte at hec ⊢
  split_ifs at hec ⊢ with hlf
  refine ⟨ls ++ [l], by simp, ?_⟩
  simp [linesText_append, linesText_singleton, FieldLine.bytes, crlf, ht, hlf]

/-- One byte keeps the description, as long as it raises no error. -/
theorem describes_byte {t : ByteString} {s : BlockText} {c : UInt8} (h : Describes t s.pos)
    (hec : (s.byte c).ec = none) : Describes (t ++ [c]) (s.byte c).pos := by
  obtain ⟨pos, fs, ec⟩ := s
  cases pos with
  | name n =>
    obtain ⟨ls, ht, hn, -⟩ := h
    exact describes_nameByte ht hn hec
  | blanks n =>
    obtain ⟨ls, l, ht, rfl, hv⟩ := h
    simp only [byte, blankByte] at hec ⊢
    split_ifs at hec ⊢ with hb
    · refine ⟨ls, ⟨l.name, l.ows ++ [c], [], l.name_token, ?_, by simp, by simp⟩, ?_, rfl, rfl⟩
      · intro d hd
        rcases List.mem_append.mp hd with hd | hd
        · exact l.ows_blank d hd
        · rwa [List.mem_singleton.mp hd]
      · simp [FieldLine.text, ht, hv]
    · have hstep := describes_valueByte (.blanks l.name) fs ec ht (fun _ hc => hb (Or.inl hc))
      rw [hv] at hstep
      exact hstep hec
  | value n v =>
    obtain ⟨ls, l, ht, rfl, rfl, hne⟩ := h
    exact describes_valueByte _ _ _ ht (fun hv => absurd hv hne) hec
  | lineCr n v =>
    obtain ⟨ls, l, ht, rfl, rfl⟩ := h
    exact describes_crByte ht hec
  | lineEnd =>
    obtain ⟨ls, hls, ht⟩ := h
    simp only [byte] at hec ⊢
    split_ifs at hec ⊢ with hcr
    · exact ⟨ls, hls, by simp [ht, hcr]⟩
    · have hpos : nameByte ⟨.lineEnd, fs, ec⟩ [] c = nameByte ⟨.name [], fs, ec⟩ [] c := by
        simp [nameByte, blankByte, valueByte]
      rw [hpos] at hec ⊢
      exact describes_nameByte (n := []) (by simpa using ht) (by simp) hec
  | blankCr =>
    obtain ⟨ls, hls, ht⟩ := h
    simp only [byte] at hec ⊢
    split_ifs at hec ⊢ with hlf
    · exact ⟨ls, hls, by simp [ht, hlf, crlf]⟩
    · simp [crByte, hlf] at hec
  | closed rest =>
    obtain ⟨ls, hls, ht⟩ := h
    exact ⟨ls, hls, by simp [ht]⟩

theorem describes_read {t : ByteString} (h : (start.read t).ec = none) :
    Describes t (start.read t).pos := by
  induction t using List.reverseRecOn with
  | nil => exact ⟨[], rfl, by simp, fun _ => rfl⟩
  | append_singleton t c ih =>
    rw [read_append] at h ⊢
    exact describes_byte (ih (ec_byte h)) h

end BlockText

end Webcrown.Http
