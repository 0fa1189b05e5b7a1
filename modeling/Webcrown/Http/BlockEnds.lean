import Webcrown.Http.BlockText

/-!
# Where a header block ends

The end of a block as a function of the state its text leads to and of the memory
`z` behind the chunk: the lines entered, and whether the iterator is left behind
the chunk.
-/

namespace Webcrown.Http

open Bytes Common BlockText

/-- What `parse_message_header` leaves for the block from `it` on. -/
def blockEnd (m : ℕ → UInt8) (last it : ℕ) (ec : ErrorCode) : BlockEnd :=
  if it + 2 > last then ⟨it, [], some .incompleteMessageHeader⟩
  else (read ⟨.name [], [], ec⟩ (slice m it last)).close m last

theorem parseMessageHeader_eq_blockEnd (m : ℕ → UInt8) (last it : ℕ) (hs : Headers)
    (ec : ErrorCode) :
    (parseMessageHeader m last it hs ec).1 =
      ⟨(blockEnd m last it ec).it, hs.insertAll (blockEnd m last it ec).fields,
        (blockEnd m last it ec).ec⟩ := by
  unfold blockEnd
  by_cases h : it + 2 > last
  · simp [parseMessageHeader, h]
  · rw [parseMessageHeader_eq_read m hs ec (by omega)]
    simp [h]

namespace LinePos

def lastFields (z : ℕ → UInt8) : LinePos → List (ByteString × ByteString)
  | name n => if n = [] then [] else [(n, [])]
  | blanks n => [(n, [])]
  | value n v => [(n, v)]
  | lineCr n v => [(n, if z 0 = lf then v else [])]
  | lineEnd => []
  | blankCr => if z 0 = lf then [] else [([], [])]
  | closed _ => []

/-- Positions from which the iterator is left behind the chunk. -/
def Overshoots (z : ℕ → UInt8) : LinePos → Prop
  | name n => n ≠ []
  | blanks _ => ¬(z 0 = cr ∧ z 2 = cr ∧ z 3 = lf)
  | value _ _ => ¬(z 0 = cr ∧ z 2 = cr ∧ z 3 = lf)
  | lineCr _ _ => ¬(z 1 = cr ∧ z 2 = lf)
  | lineEnd => False
  | blankCr => z 0 ≠ lf ∧ ¬(z 1 = cr ∧ z 2 = lf)
  | closed _ => False

end LinePos

variable {m : ℕ → UInt8} {last it : ℕ}

theorem fields_close (s : BlockText) (m : ℕ → UInt8) (last : ℕ) :
    (s.close m last).fields = s.fields ++ s.pos.lastFields (fun k => m (last + k)) := by
  obtain ⟨pos, fs, ec⟩ := s
  cases pos <;> simp only [close, lineTail, LinePos.lastFields, Nat.add_zero, List.append_nil]
  all_goals split_ifs <;> simp

theorem it_lineTail_le {p : ℕ} {fs ec} (h : p ≤ last)
    (hblank : m p ≠ cr ∧ p + 1 ≤ last ∨ m (p + 2) = cr ∧ m (p + 3) = lf ∧ m p = cr) :
    (lineTail m p fs ec).it ≤ last := by
  unfold lineTail headerLineEnd
  dsimp only
  split_ifs <;> simp_all

theorem it_close_le {s : BlockText} (hlast : 0 < last)
    (h : ¬ s.pos.Overshoots (fun k => m (last + k))) : (s.close m last).it ≤ last := by
  obtain ⟨pos, fs, ec⟩ := s
  have hend : ∀ fs ec, m (last + 1) = cr ∧ m (last + 2) = lf →
      (lineTail m (last - 1) fs ec).it ≤ last := by
    intro fs ec hz
    by_cases hcr : m (last - 1) = cr
    · refine it_lineTail_le (by omega) (Or.inr ⟨?_, ?_, hcr⟩)
      · rw [show last - 1 + 2 = last + 1 by omega]
        exact hz.1
      · rw [show last - 1 + 3 = last + 2 by omega]
        exact hz.2
    · exact it_lineTail_le (by omega) (Or.inl ⟨hcr, by omega⟩)
  cases pos with
  | name n =>
    simp only [LinePos.Overshoots, ne_eq, not_not] at h
    simp [close, h]
  | blanks n =>
    simp only [LinePos.Overshoots, not_not, Nat.add_zero] at h
    exact it_lineTail_le le_rfl (Or.inr ⟨h.2.1, h.2.2, h.1⟩)
  | value n v =>
    simp only [LinePos.Overshoots, not_not, Nat.add_zero] at h
    exact it_lineTail_le le_rfl (Or.inr ⟨h.2.1, h.2.2, h.1⟩)
  | lineCr n v =>
    simp only [LinePos.Overshoots, not_not] at h
    exact hend _ _ h
  | lineEnd =>
    simp only [close]
    split_ifs <;> omega
  | blankCr =>
    simp only [LinePos.Overshoots, Nat.add_zero] at h
    simp only [close]
    split_ifs with hlf
    · exact Nat.sub_le last 3
    · exact hend _ _ (not_not.mp fun hz => h ⟨hlf, hz⟩)
  | closed rest =>
    simp only [close]
    omega

/-- However a block is cut, the iterator stays within three cells of its end. -/
theorem it_blockEnd_le (m : ℕ → UInt8) (last it : ℕ) (ec : ErrorCode) :
    (blockEnd m last it ec).it ≤ max it (last + 3) := by
  have htail : ∀ p fs ec, (lineTail m p fs ec).it ≤ p + 2 := by
    intro p fs ec
    unfold lineTail headerLineEnd
    dsimp only
    split_ifs <;> simp_all
  unfold blockEnd
  split_ifs
  · exact le_max_left _ _
  · refine le_trans ?_ (le_max_right it (last + 3))
    obtain ⟨pos, fs, ec⟩ := read ⟨.name [], [], ec⟩ (slice m it last)
    unfold close
    cases pos with
    | name n =>
      dsimp only
      split_ifs
      · exact Nat.le_add_right _ _
      · exact htail _ _ _
    | blanks n => exact (htail _ _ _).trans (by omega)
    | value n v => exact (htail _ _ _).trans (by omega)
    | lineCr n v => exact (htail _ _ _).trans (by omega)
    | lineEnd =>
      dsimp only
      split_ifs <;> omega
    | blankCr =>
      dsimp only
      split_ifs
      · exact (Nat.sub_le _ _).trans (Nat.le_add_right _ _)
      · exact (htail _ _ _).trans (by omega)
    | closed rest => exact (Nat.sub_le _ _).trans (Nat.le_add_right _ _)

theorem read_pos_fields (s : BlockText) (ec : ErrorCode) (t : ByteString) :
    (read { s with ec := ec } t).pos = (s.read t).pos ∧
      (read { s with ec := ec } t).fields = (s.read t).fields := by
  induction t generalizing s ec with
  | nil => exact ⟨rfl, rfl⟩
  | cons c t ih =>
    have hbyte : ∃ ec', byte { s with ec := ec } c = { s.byte c with ec := ec' } := by
      obtain ⟨pos, fs, ec₀⟩ := s
      cases pos with
      | closed rest => exact ⟨ec, rfl⟩
      | _ =>
        simp only [byte, nameByte, blankByte, valueByte, crByte]
        split_ifs <;> exact ⟨_, rfl⟩
    obtain ⟨ec', hbyte⟩ := hbyte
    rw [read_cons, read_cons, hbyte]
    exact ih _ _

theorem read_start_pos (ec : ErrorCode) (t : ByteString) :
    (read ⟨.name [], [], ec⟩ t).pos = (start.read t).pos :=
  (read_pos_fields start ec t).1

theorem read_start_fields (ec : ErrorCode) (t : ByteString) :
    (read ⟨.name [], [], ec⟩ t).fields = (start.read t).fields :=
  (read_pos_fields start ec t).2

/-- How the text read so far ends, in the states after the CR of a line. -/
def EndsAs (t : ByteString) : LinePos → Prop
  | .lineCr _ _ => ∃ x, t = x ++ [cr]
  | .lineEnd => ∃ x c, t = x ++ [cr, c]
  | .blankCr => ∃ x c, t = x ++ [cr, c, cr]
  | .closed rest => ∃ x c, t = x ++ ([cr, c, cr, lf] ++ rest)
  | _ => True

theorem endsAs_byte {t : ByteString} {s : BlockText} {c : UInt8} (h : EndsAs t s.pos) :
    EndsAs (t ++ [c]) (s.byte c).pos := by
  obtain ⟨pos, fs, ec⟩ := s
  have hname : ∀ pos n fs ec, EndsAs (t ++ [c]) (nameByte ⟨pos, fs, ec⟩ n c).pos := by
    intro pos n fs ec
    unfold nameByte blankByte valueByte
    split_ifs with _ _ _ hcr
    all_goals first
      | exact trivial
      | exact ⟨t, by rw [hcr]⟩
  cases pos with
  | name n => exact hname _ _ _ _
  | blanks n =>
    unfold byte blankByte valueByte
    dsimp only
    split_ifs with _ hcr
    all_goals first
      | exact trivial
      | exact ⟨t, by rw [hcr]⟩
  | value n v =>
    unfold byte valueByte
    dsimp only
    split_ifs with hcr
    all_goals first
      | exact trivial
      | exact ⟨t, by rw [hcr]⟩
  | lineCr n v =>
    obtain ⟨x, rfl⟩ := h
    unfold byte crByte
    dsimp only
    split_ifs <;> exact ⟨x, c, by simp⟩
  | lineEnd =>
    obtain ⟨x, d, rfl⟩ := h
    simp only [byte]
    split_ifs with hcr
    · exact ⟨x, d, by simp [hcr]⟩
    · exact hname _ _ _ _
  | blankCr =>
    obtain ⟨x, d, rfl⟩ := h
    simp only [byte]
    split_ifs with hlf
    · exact ⟨x, d, by simp [hlf]⟩
    · unfold crByte
      split_ifs
      exact ⟨x ++ [cr, d], c, by simp⟩
  | closed rest =>
    obtain ⟨x, d, rfl⟩ := h
    exact ⟨x, d, by simp⟩

theorem endsAs_read (t : ByteString) : EndsAs t (start.read t).pos := by
  induction t using List.reverseRecOn with
  | nil => exact trivial
  | append_singleton t c ih =>
    rw [read_append]
    exact endsAs_byte ih

end Webcrown.Http
