import Webcrown.Http.HeaderGrammar

/-!
# Which header blocks are accepted

`parse_message_header` sets no error on every complete block, but also on some
texts that are none: blocks without their empty line, and blocks with an empty
field name. The kinds are listed exactly.
-/

namespace Webcrown.Http

open Bytes Common BlockText

/-- A text that begins with a complete header block: one or more lines with a
nonempty name, then an empty line. -/
def BeginsWithBlock (t : ByteString) : Prop :=
  ∃ (ls : List FieldLine) (rest : ByteString),
    ls ≠ [] ∧ (∀ l ∈ ls, l.name ≠ []) ∧ t = linesText ls ++ (crlf ++ rest)

/-- Texts that are taken for header blocks without being complete ones: `z` is the
memory behind the text. -/
inductive TakenForBlock (z : ℕ → UInt8) : ByteString → Prop
  /-- cut off between two lines, or before the empty line -/
  | afterLine (ls) : ls ≠ [] → TakenForBlock z (linesText ls)
  /-- cut off behind a byte of a value -/
  | inValue (ls) (l : FieldLine) : l.value ≠ [] → (z 0 = cr → z 1 = lf) →
      TakenForBlock z (linesText ls ++ l.text)
  /-- cut off inside the CR LF of a line, with a stray LF behind -/
  | inLineEnd (ls) (l : FieldLine) : z 0 = lf → TakenForBlock z (linesText ls ++ (l.text ++ [cr]))
  /-- cut off inside the empty line, with a stray LF behind -/
  | inEmptyLine (ls) : ls ≠ [] → z 0 = lf → TakenForBlock z (linesText ls ++ [cr])
  /-- complete, with a line that has no name -/
  | unnamed (ls rest) : ls ≠ [] → (∃ l ∈ ls, l.name = []) →
      TakenForBlock z (linesText ls ++ (crlf ++ rest))

/-- Whether the end of the chunk in an error-free state raises no error. -/
def SilentEnd (z : ℕ → UInt8) : LinePos → Prop
  | .name n => n = []
  | .blanks _ => False
  | .value _ _ => z 0 = cr → z 1 = lf
  | .lineCr _ _ => z 0 = lf
  | .lineEnd => True
  | .blankCr => z 0 = lf
  | .closed _ => True

theorem ec_lineTail_eq_none {m : ℕ → UInt8} {p : ℕ} {fs ec} :
    (lineTail m p fs ec).ec = none ↔ ec = none ∧ (m p = cr → m (p + 1) = lf) := by
  unfold lineTail headerLineEnd
  dsimp only
  split_ifs with h1 h2 h3 h3 <;> simp_all

theorem ec_close_eq_none {s : BlockText} {m : ℕ → UInt8} {last : ℕ}
    (hcr : ∀ n v, s.pos = .lineCr n v → m (last - 1) = cr ∧ last - 1 + 1 = last)
    (hblank : s.pos = .blankCr → m (last - 1) = cr ∧ last - 1 + 1 = last) :
    (s.close m last).ec = none ↔ s.ec = none ∧ SilentEnd (fun k => m (last + k)) s.pos := by
  obtain ⟨pos, fs, ec⟩ := s
  cases pos with
  | name n => by_cases hn : n = [] <;> simp [close, SilentEnd, hn, ec_lineTail_eq_none]
  | blanks n => simp [close, SilentEnd, ec_lineTail_eq_none]
  | value n v => simp [close, SilentEnd, ec_lineTail_eq_none]
  | lineCr n v =>
    obtain ⟨h1, h2⟩ := hcr n v rfl
    simp [close, SilentEnd, ec_lineTail_eq_none, h1, h2]
  | lineEnd => simp [close, SilentEnd]
  | blankCr =>
    obtain ⟨h1, h2⟩ := hblank rfl
    by_cases hlf : m last = lf <;> simp [close, SilentEnd, hlf, ec_lineTail_eq_none, h1, h2]
  | closed rest => simp [close, SilentEnd]

theorem last_of_slice {m : ℕ → UInt8} {it last : ℕ} {t : ByteString} {c : UInt8}
    (h : slice m it last = t ++ [c]) : m (last - 1) = c ∧ last - 1 + 1 = last := by
  have hl := congrArg List.length h
  simp only [length_slice, List.length_append, List.length_singleton] at hl
  obtain ⟨-, hc, -⟩ := slice_eq_cons (slice_eq_append h).2
  have hp : it + t.length = last - 1 := by omega
  exact ⟨hp ▸ hc, by omega⟩

/-- `parse_message_header` sets no error exactly when the text is read without one
and its end is silent. -/
theorem parseMessageHeader_ec_eq_none {m : ℕ → UInt8} {last it : ℕ} (hs : Headers)
    (h : it + 2 ≤ last) :
    (parseMessageHeader m last it hs none).1.ec = none ↔
      (start.read (slice m it last)).ec = none ∧
        SilentEnd (fun k => m (last + k)) (start.read (slice m it last)).pos := by
  rw [parseMessageHeader_eq_read m hs none h]
  change ((start.read (slice m it last)).close m last).ec = none ↔ _
  by_cases hec : (start.read (slice m it last)).ec = none
  · have hd := describes_read hec
    apply ec_close_eq_none
    · intro n v hp
      rw [hp] at hd
      obtain ⟨ls, l, ht, -, -⟩ := hd
      exact last_of_slice (t := linesText ls ++ l.text) (by rw [ht, List.append_assoc])
    · intro hp
      rw [hp] at hd
      obtain ⟨ls, -, ht⟩ := hd
      exact last_of_slice ht
  · constructor
    · intro hclose
      refine absurd ?_ hec
      revert hclose
      obtain ⟨pos, fs, ec⟩ := start.read (slice m it last)
      cases pos <;> simp only [close] <;> (try split_ifs) <;> simp +contextual [ec_lineTail_eq_none]
    · exact fun hn => absurd hn.1 hec

theorem TakenForBlock.two_le_length {z : ℕ → UInt8} {t : ByteString} (h : TakenForBlock z t) :
    2 ≤ t.length := by
  have hline : ∀ l : FieldLine, 2 ≤ l.bytes.length := by
    intro l
    simp [FieldLine.bytes, crlf]
  have hlines : ∀ ls : List FieldLine, ls ≠ [] → 2 ≤ (linesText ls).length := by
    intro ls hls
    obtain ⟨l, ls, rfl⟩ := List.exists_cons_of_ne_nil hls
    have := hline l
    simp only [linesText, List.flatMap_cons, List.length_append]
    omega
  cases h with
  | afterLine ls hls => exact hlines ls hls
  | inValue ls l hv hz =>
    have := List.length_pos_iff.mpr hv
    simp only [FieldLine.text, List.length_append, List.length_cons]
    omega
  | inLineEnd ls l hz =>
    simp only [FieldLine.text, List.length_append, List.length_cons, List.length_nil]
    omega
  | inEmptyLine ls hls hz =>
    have := hlines ls hls
    simp only [List.length_append, List.length_singleton]
    omega
  | unnamed ls rest hls hu =>
    have := hlines ls hls
    simp only [List.length_append]
    omega

theorem BeginsWithBlock.read {t : ByteString} (h : BeginsWithBlock t) :
    ∃ (ls : List FieldLine) (rest : ByteString), (∀ l ∈ ls, l.name ≠ []) ∧
      start.read t = ⟨.closed rest, ls.map FieldLine.pair, none⟩ := by
  obtain ⟨ls, rest, hls, hnames, rfl⟩ := h
  exact ⟨ls, rest, hnames, read_block hls rest none⟩

theorem TakenForBlock.read {z : ℕ → UInt8} {t : ByteString} (h : TakenForBlock z t) :
    (start.read t).ec = none ∧ SilentEnd z (start.read t).pos := by
  cases h with
  | afterLine ls hls => simp [start, read_lines hls, SilentEnd]
  | inValue ls l hv hz =>
    have := read_lines_text ls l [] none
    rw [List.append_nil] at this
    simpa [start, this, read_text, hv, SilentEnd] using hz
  | inLineEnd ls l hz => simpa [start, read_lines_text, read_text_cr, SilentEnd] using hz
  | inEmptyLine ls hls hz =>
    simpa [start, read_append, read_lines hls, byte, SilentEnd] using hz
  | unnamed ls rest hls hu => simp [start, read_block hls, SilentEnd]

theorem TakenForBlock.not_beginsWithBlock {z : ℕ → UInt8} {t : ByteString}
    (h : TakenForBlock z t) : ¬ BeginsWithBlock t := by
  intro hb
  obtain ⟨ls', rest', hnames, hread⟩ := hb.read
  cases h with
  | afterLine ls hls => simp [start, read_lines hls] at hread
  | inValue ls l hv hz =>
    have := read_lines_text ls l [] none
    rw [List.append_nil] at this
    simp [start, this, read_text, hv] at hread
  | inLineEnd ls l hz => simp [start, read_lines_text, read_text_cr] at hread
  | inEmptyLine ls hls hz => simp [start, read_append, read_lines hls, byte] at hread
  | unnamed ls rest hls hu =>
    obtain ⟨l, hl, hempty⟩ := hu
    simp only [start, read_block hls, BlockText.mk.injEq, and_true] at hread
    have hmem : l.pair ∈ ls'.map FieldLine.pair := hread.2 ▸ List.mem_map_of_mem hl
    obtain ⟨l', hl', hpair⟩ := List.mem_map.mp hmem
    exact hnames l' hl' ((congrArg Prod.fst hpair).trans hempty)

/-- Every accepted text is a complete block or one of the listed kinds. -/
theorem beginsWithBlock_or_taken {z : ℕ → UInt8} {t : ByteString} (ht : t ≠ [])
    (hec : (start.read t).ec = none) (hend : SilentEnd z (start.read t).pos) :
    BeginsWithBlock t ∨ TakenForBlock z t := by
  have hd := describes_read hec
  cases hp : (start.read t).pos with
  | name n =>
    rw [hp] at hd hend
    obtain ⟨ls, rfl, -, hls⟩ := hd
    simp only [SilentEnd] at hend
    simp [hend, hls hend] at ht
  | blanks n =>
    rw [hp] at hend
    exact hend.elim
  | value n v =>
    rw [hp] at hd hend
    obtain ⟨ls, l, rfl, -, rfl, hv⟩ := hd
    exact Or.inr (.inValue ls l hv hend)
  | lineCr n v =>
    rw [hp] at hd hend
    obtain ⟨ls, l, rfl, -, -⟩ := hd
    exact Or.inr (.inLineEnd ls l hend)
  | lineEnd =>
    rw [hp] at hd
    obtain ⟨ls, hls, rfl⟩ := hd
    exact Or.inr (.afterLine ls hls)
  | blankCr =>
    rw [hp] at hd hend
    obtain ⟨ls, hls, rfl⟩ := hd
    exact Or.inr (.inEmptyLine ls hls hend)
  | closed rest =>
    rw [hp] at hd
    obtain ⟨ls, hls, rfl⟩ := hd
    by_cases hnames : ∀ l ∈ ls, l.name ≠ []
    · exact Or.inl ⟨ls, rest, hls, hnames, rfl⟩
    · simp only [not_forall, not_not, exists_prop] at hnames
      exact Or.inr (.unnamed ls rest hls hnames)

/-- `parse_message_header` accepts only complete blocks, except on the texts listed
in `TakenForBlock`, where it accepts one that is none. -/
theorem parseMessageHeader_sound_iff (m : ℕ → UInt8) (last it : ℕ) (hs : Headers) :
    ((parseMessageHeader m last it hs none).1.ec = none → BeginsWithBlock (slice m it last)) ↔
      ¬ TakenForBlock (fun k => m (last + k)) (slice m it last) := by
  by_cases h : it + 2 ≤ last
  · rw [parseMessageHeader_ec_eq_none hs h]
    constructor
    · intro hsound htaken
      exact htaken.not_beginsWithBlock (hsound htaken.read)
    · rintro htaken ⟨hec, hend⟩
      have hne : slice m it last ≠ [] := by
        rw [slice_cons m (by omega)]
        simp
      exact (beginsWithBlock_or_taken hne hec hend).resolve_right htaken
  · have hec : (parseMessageHeader m last it hs none).1.ec ≠ none := by
      simp [parseMessageHeader, show it + 2 > last by omega]
    apply iff_of_true (fun hn => absurd hn hec)
    intro htaken
    have := htaken.two_le_length
    rw [length_slice] at this
    omega

/-- `A:b` at the end of the buffer is accepted, without CR LF and empty line. -/
theorem parseMessageHeader_accepts_cut :
    ∃ (m : ℕ → UInt8) (last it : ℕ), (parseMessageHeader m last it ∅ none).1.ec = none ∧
      ¬ BeginsWithBlock (slice m it last) := by
  refine ⟨fun k => (ascii "A:b")[k]?.getD 0, 3, 0, by decide, ?_⟩
  have htext : slice (fun k => (ascii "A:b")[k]?.getD 0) 0 3 = ascii "A:b" := by decide
  rw [htext]
  intro hb
  obtain ⟨ls, rest, -, hread⟩ := hb.read
  have hpos : (start.read (ascii "A:b")).pos = .value (ascii "A") (ascii "b") := by decide
  rw [hread] at hpos
  cases hpos

end Webcrown.Http
