import Webcrown.Http.HeaderScanners

/-!
# Header blocks read byte by byte

An abstract reader of header blocks: a state machine that consumes one byte at a
time and knows nothing of pointers. `close` says what becomes of a block whose
chunk ends in a given state; only there does memory behind the chunk matter. The
pointer loop of `parse_message_header` is this machine (`headerLoop_eq_read`), so
every question about a header block becomes one about its text.
-/

namespace Webcrown.Http

open Bytes Common

/-- Where in a header block the next byte falls. -/
inductive LinePos
  /-- in a field name of which `n` is read; at the start of a line when `n` is empty -/
  | name (n : ByteString)
  /-- after the colon, before the value -/
  | blanks (n : ByteString)
  | value (n v : ByteString)
  /-- after the CR that ends the line of `n` and `v` -/
  | lineCr (n v : ByteString)
  /-- after that CR and one more byte -/
  | lineEnd
  /-- after a second CR, which may open the empty line -/
  | blankCr
  /-- after the empty line and then `rest` -/
  | closed (rest : ByteString)
  deriving DecidableEq

structure BlockText where
  pos : LinePos
  fields : List (ByteString × ByteString)
  ec : ErrorCode
  deriving DecidableEq

/-- What `parse_message_header` leaves, with the header lines it entered. -/
structure BlockEnd where
  it : ℕ
  fields : List (ByteString × ByteString)
  ec : ErrorCode
  deriving DecidableEq

namespace BlockText

def start : BlockText := ⟨.name [], [], none⟩

/-- A bad value byte drops the value and starts a new line. -/
def valueByte (s : BlockText) (n v : ByteString) (c : UInt8) : BlockText :=
  if c = cr then { s with pos := .lineCr n v }
  else if isPrint c then { s with pos := .value n (v ++ [c]) }
  else ⟨.name [], s.fields ++ [(n, [])], some .badFieldValue⟩

def blankByte (s : BlockText) (n : ByteString) (c : UInt8) : BlockText :=
  if c = sp ∨ c = tab then { s with pos := .blanks n } else s.valueByte n [] c

/-- A bad name byte drops the name and is read again as the start of a value. -/
def nameByte (s : BlockText) (n : ByteString) (c : UInt8) : BlockText :=
  if c = colon then { s with pos := .blanks n }
  else if isValidToken c then { s with pos := .name (n ++ [c]) }
  else { s with ec := some .badField }.blankByte [] c

def crByte (s : BlockText) (n v : ByteString) (c : UInt8) : BlockText :=
  if c = lf then ⟨.lineEnd, s.fields ++ [(n, v)], s.ec⟩
  else ⟨.lineEnd, s.fields ++ [(n, [])], some .invalidMessageHeaderCrlf⟩

def byte (s : BlockText) (c : UInt8) : BlockText :=
  match s.pos with
  | .name n => s.nameByte n c
  | .blanks n => s.blankByte n c
  | .value n v => s.valueByte n v c
  | .lineCr n v => s.crByte n v c
  | .lineEnd => if c = cr then { s with pos := .blankCr } else s.nameByte [] c
  | .blankCr =>
    -- without its LF the second CR was a line of its own
    if c = lf then { s with pos := .closed [] } else s.crByte [] [] c
  | .closed rest => { s with pos := .closed (rest ++ [c]) }

def read (s : BlockText) (t : ByteString) : BlockText := t.foldl byte s

@[simp] theorem read_nil (s : BlockText) : s.read [] = s := rfl

@[simp] theorem read_cons (s : BlockText) (c : UInt8) (t : ByteString) :
    s.read (c :: t) = (s.byte c).read t := rfl

theorem read_append (s : BlockText) (t u : ByteString) : s.read (t ++ u) = (s.read t).read u :=
  List.foldl_append

/-- The last line-end test of a chunk, made at `p`. -/
def lineTail (m : ℕ → UInt8) (p : ℕ) (fields : List (ByteString × ByteString)) (ec : ErrorCode) :
    BlockEnd :=
  let e := headerLineEnd m p ec
  ⟨if e.leave then e.it else e.it + 1, fields, e.ec⟩

/-- The end of a chunk reached in state `s`, with the chunk ending at `last`. -/
def close (s : BlockText) (m : ℕ → UInt8) (last : ℕ) : BlockEnd :=
  match s.pos with
  | .name n =>
    if n = [] then ⟨last, s.fields, s.ec⟩
    else lineTail m (last + 1) (s.fields ++ [(n, [])]) (some .incompleteMessageHeader)
  | .blanks n => lineTail m last (s.fields ++ [(n, [])]) (some .incompleteMessageHeader)
  | .value n v => lineTail m last (s.fields ++ [(n, v)]) s.ec
  | .lineCr n v =>
    lineTail m (last - 1) (s.fields ++ [(n, if m last = lf then v else [])]) s.ec
  | .lineEnd => ⟨if m last = cr ∧ m (last + 1) = lf then last - 2 else last, s.fields, s.ec⟩
  | .blankCr =>
    if m last = lf then ⟨last - 3, s.fields, s.ec⟩
    else lineTail m (last - 1) (s.fields ++ [([], [])]) s.ec
  | .closed rest => ⟨last - (rest.length + 4), s.fields, s.ec⟩

theorem read_tokens {n t : ByteString} {fs ec} (h : ∀ c ∈ t, isValidToken c = true) :
    read ⟨.name n, fs, ec⟩ t = ⟨.name (n ++ t), fs, ec⟩ := by
  induction t generalizing n with
  | nil => simp
  | cons c t ih =>
    have hc : isValidToken c = true := h c (by simp)
    have hne : c ≠ colon := by rintro rfl; simp at hc
    have hb : byte ⟨.name n, fs, ec⟩ c = ⟨.name (n ++ [c]), fs, ec⟩ := by
      simp [byte, nameByte, hne, hc]
    rw [read_cons, hb, ih fun d hd => h d (by simp [hd]), List.append_assoc]
    rfl

theorem read_blanks {n t : ByteString} {fs ec} (h : ∀ c ∈ t, c = sp ∨ c = tab) :
    read ⟨.blanks n, fs, ec⟩ t = ⟨.blanks n, fs, ec⟩ := by
  induction t with
  | nil => rfl
  | cons c t ih =>
    have hb : byte ⟨.blanks n, fs, ec⟩ c = ⟨.blanks n, fs, ec⟩ := by
      simp [byte, blankByte, h c (by simp)]
    rw [read_cons, hb, ih fun d hd => h d (by simp [hd])]

theorem read_printable {n v t : ByteString} {fs ec} (h : ∀ c ∈ t, isPrint c = true) :
    read ⟨.value n v, fs, ec⟩ t = ⟨.value n (v ++ t), fs, ec⟩ := by
  induction t generalizing v with
  | nil => simp
  | cons c t ih =>
    have hc : isPrint c = true := h c (by simp)
    have hne : c ≠ cr := by rintro rfl; rw [isPrint_cr] at hc; cases hc
    have hb : byte ⟨.value n v, fs, ec⟩ c = ⟨.value n (v ++ [c]), fs, ec⟩ := by
      simp [byte, valueByte, hne, hc]
    rw [read_cons, hb, ih fun d hd => h d (by simp [hd]), List.append_assoc]
    rfl

theorem read_closed {r t : ByteString} {fs ec} :
    read ⟨.closed r, fs, ec⟩ t = ⟨.closed (r ++ t), fs, ec⟩ := by
  induction t generalizing r with
  | nil => simp
  | cons c t ih =>
    rw [read_cons]
    change read ⟨.closed (r ++ [c]), fs, ec⟩ t = _
    rw [ih, List.append_assoc]
    rfl

theorem read_value_of_blanks {n t : ByteString} {c : UInt8} {fs ec} (hb : ¬(c = sp ∨ c = tab)) :
    read ⟨.blanks n, fs, ec⟩ (c :: t) = read ⟨.value n [], fs, ec⟩ (c :: t) := by
  simp [read_cons, byte, blankByte, hb, valueByte]

end BlockText

open BlockText

/-- The name scanner on a nonempty rest. Either it stops inside, at a colon or a
bad byte, and the machine goes on after the colon or at that byte; or the chunk
ends inside the name. -/
theorem read_parseMessageHeaderName (m : ℕ → UInt8) {last it : ℕ} (fs ec) (h : it < last) :
    let s := parseMessageHeaderName m last it ec
    (s.it ≤ last ∧ read ⟨.name [], fs, ec⟩ (slice m it last) =
        read ⟨.blanks s.text, fs, s.ec⟩ (slice m s.it last) ∧
      (s.it = last → s.ec = ec)) ∨
    (s = ⟨last + 1, slice m it last, ec⟩ ∧
      read ⟨.name [], fs, ec⟩ (slice m it last) = ⟨.name (slice m it last), fs, ec⟩) := by
  intro s
  set p := scan (fun k => m k == colon || !isValidToken (m k)) last it with hp
  have hip : it ≤ p := le_scan
  have hpl : p ≤ last := scan_le h.le
  have htok : ∀ c ∈ slice m it p, isValidToken c = true := by
    intro c hc
    rw [hp] at hc
    obtain ⟨k, rfl, hstop⟩ := exists_not_stop_of_mem_slice_scan hc
    simp only [Bool.or_eq_false_iff, Bool.not_eq_false'] at hstop
    exact hstop.2
  have hread : read ⟨.name [], fs, ec⟩ (slice m it last) =
      read ⟨.name (slice m it p), fs, ec⟩ (slice m p last) := by
    rw [← slice_append m hip hpl, read_append, read_tokens htok, List.nil_append]
  rcases Nat.lt_or_ge p last with hlt | hge
  · left
    by_cases hcol : m p = colon
    · have hs : s = ⟨p + 1, slice m it p, ec⟩ := by
        simp [s, parseMessageHeaderName, ← hp, hcol]
      rw [hs]
      refine ⟨hlt, ?_, fun _ => rfl⟩
      rw [hread, slice_cons m hlt, read_cons]
      simp [byte, nameByte, hcol]
    · have hbad : isValidToken (m p) = false := by
        have := stop_scan (hp ▸ hlt)
        rw [← hp] at this
        simpa [hcol] using this
      have hs : s = ⟨p, [], some .badField⟩ := by
        simp [s, parseMessageHeaderName, ← hp, hcol, hlt]
      rw [hs]
      refine ⟨hpl, ?_, fun he => absurd he hlt.ne⟩
      rw [hread, slice_cons m hlt, read_cons, read_cons]
      simp [byte, nameByte, hcol, hbad, blankByte, valueByte]
  · right
    have hpe : p = last := le_antisymm hpl hge
    refine ⟨?_, ?_⟩
    · simp [s, parseMessageHeaderName, ← hp, hpe]
    · rw [hread, hpe, slice_self, read_nil]

/-- Where the value scanner stops, and the machine's state there. -/
inductive ValueStop (m : ℕ → UInt8) (last it : ℕ) (n : ByteString)
    (fs : List (ByteString × ByteString)) (ec : ErrorCode) : Scanned → Prop
  | blanks : read ⟨.blanks n, fs, ec⟩ (slice m it last) = ⟨.blanks n, fs, ec⟩ →
      ValueStop m last it n fs ec ⟨last, [], some .incompleteMessageHeader⟩
  | value (v) : read ⟨.blanks n, fs, ec⟩ (slice m it last) = ⟨.value n v, fs, ec⟩ →
      ValueStop m last it n fs ec ⟨last, v, ec⟩
  | lineCr (q v) : it ≤ q → q < last → m q = cr →
      read ⟨.blanks n, fs, ec⟩ (slice m it (q + 1)) = ⟨.lineCr n v, fs, ec⟩ →
      ValueStop m last it n fs ec
        ⟨q, if m (q + 1) = lf then v else [], if m (q + 1) = lf then ec else some .badFieldValue⟩
  | bad (q) : it ≤ q → q < last → m q ≠ cr →
      read ⟨.blanks n, fs, ec⟩ (slice m it (q + 1)) =
        ⟨.name [], fs ++ [(n, [])], some .badFieldValue⟩ →
      ValueStop m last it n fs ec ⟨q, [], some .badFieldValue⟩

theorem read_parseMessageHeaderValue (m : ℕ → UInt8) {last it : ℕ} (n fs ec) (h : it ≤ last) :
    ValueStop m last it n fs ec (parseMessageHeaderValue m last it ec) := by
  set first := scan (fun k => !(m k == sp || m k == tab)) last it with hf
  have hif : it ≤ first := le_scan
  have hfl : first ≤ last := scan_le h
  have hblank : ∀ c ∈ slice m it first, c = sp ∨ c = tab := by
    intro c hc
    rw [hf] at hc
    obtain ⟨k, rfl, hstop⟩ := exists_not_stop_of_mem_slice_scan hc
    simp only [Bool.not_eq_false', Bool.or_eq_true, beq_iff_eq] at hstop
    exact hstop
  have hskip : ∀ j, first ≤ j → read ⟨.blanks n, fs, ec⟩ (slice m it j) =
      read ⟨.blanks n, fs, ec⟩ (slice m first j) := by
    intro j hj
    rw [← slice_append m hif hj, read_append, read_blanks hblank]
  rcases hfl.eq_or_lt with hfe | hlt
  · have hs : parseMessageHeaderValue m last it ec =
        ⟨last, [], some .incompleteMessageHeader⟩ := by
      simp only [parseMessageHeaderValue, ← hf]
      rw [if_pos (by omega), hfe]
    rw [hs]
    exact .blanks (by rw [hskip last hfl, hfe, slice_self, read_nil])
  · have hnb : ¬(m first = sp ∨ m first = tab) := by
      have := stop_scan (hf ▸ hlt)
      rw [← hf] at this
      simpa using this
    set p := scan (fun k => (m k == cr && m (k + 1) == lf) || !isPrint (m k)) last first with hp
    have hfp : first ≤ p := le_scan
    have hpl : p ≤ last := scan_le hfl
    have hprint : ∀ c ∈ slice m first p, isPrint c = true := by
      intro c hc
      rw [hp] at hc
      obtain ⟨k, rfl, hstop⟩ := exists_not_stop_of_mem_slice_scan hc
      simp only [Bool.or_eq_false_iff, Bool.not_eq_false'] at hstop
      exact hstop.2
    -- past its first byte the machine reads a value
    have hread : ∀ j, first < j → p ≤ j → read ⟨.blanks n, fs, ec⟩ (slice m it j) =
        read ⟨.value n (slice m first p), fs, ec⟩ (slice m p j) := by
      intro j hj hpj
      rw [hskip j hj.le, slice_cons m hj, read_value_of_blanks hnb, ← slice_cons m hj,
        ← slice_append m hfp hpj, read_append, read_printable hprint, List.nil_append]
    rcases hpl.eq_or_lt with hpe | hplt
    · have hs : parseMessageHeaderValue m last it ec = ⟨last, slice m first last, ec⟩ := by
        simp only [parseMessageHeaderValue, ← hf, ← hp]
        rw [if_neg (by omega)]
        simp [hpe]
      rw [hs]
      exact .value _ (by rw [hread last hlt hpl, hpe, slice_self, read_nil])
    · have hstop : (m p == cr && m (p + 1) == lf) || !isPrint (m p) := by
        have := stop_scan (hp ▸ hplt)
        rwa [← hp] at this
      have h1 : ¬ first + 1 > last := by omega
      have hlast := hread (p + 1) (by omega) (by omega)
      rw [slice_cons m (Nat.lt_succ_self p), slice_self, read_cons, read_nil] at hlast
      by_cases hcr : m p = cr
      · have hs : parseMessageHeaderValue m last it ec =
            ⟨p, if m (p + 1) = lf then slice m first p else [],
              if m (p + 1) = lf then ec else some .badFieldValue⟩ := by
          simp only [parseMessageHeaderValue, ← hf, ← hp]
          rw [if_neg h1]
          by_cases hlf : m (p + 1) = lf <;> simp [hplt, hcr, hlf]
        rw [hs]
        exact .lineCr p _ (hif.trans hfp) hplt hcr (by rw [hlast]; simp [byte, valueByte, hcr])
      · have hnp : isPrint (m p) = false := by simpa [hcr] using hstop
        have hs : parseMessageHeaderValue m last it ec = ⟨p, [], some .badFieldValue⟩ := by
          simp only [parseMessageHeaderValue, ← hf, ← hp]
          rw [if_neg h1]
          simp [hplt, hcr]
        rw [hs]
        exact .bad p (hif.trans hfp) hplt hcr
          (by rw [hlast]; simp [byte, valueByte, hcr, hnp])

theorem byte_lineCr (n v : ByteString) (fs : List (ByteString × ByteString)) (ec : ErrorCode)
    (c : UInt8) : byte ⟨.lineCr n v, fs, ec⟩ c =
      ⟨.lineEnd, fs ++ [(n, if c = lf then v else [])],
        if c = lf then ec else some .invalidMessageHeaderCrlf⟩ := by
  by_cases hlf : c = lf <;> simp [byte, crByte, hlf]

theorem headerLineEnd_lineCr {m : ℕ → UInt8} {q : ℕ} (hcr : m q = cr) (ec : ErrorCode) :
    headerLineEnd m q (if m (q + 1) = lf then ec else some .badFieldValue) =
      headerLineEnd m q ec := by
  by_cases hlf : m (q + 1) = lf <;> simp [headerLineEnd, hcr, hlf]

theorem close_read_lineEnd {m : ℕ → UInt8} {p last : ℕ} (fs ec) (h : p ≤ last)
    (hblank : ¬(m p = cr ∧ m (p + 1) = lf)) :
    (read ⟨.lineEnd, fs, ec⟩ (slice m p last)).close m last =
      (read ⟨.name [], fs, ec⟩ (slice m p last)).close m last := by
  rcases h.eq_or_lt with rfl | hlt
  · simp [close, hblank]
  · rw [slice_cons m hlt, read_cons, read_cons]
    by_cases hcr : m p = cr
    · have hlf : m (p + 1) ≠ lf := fun hlf => hblank ⟨hcr, hlf⟩
      have hname : byte ⟨.name [], fs, ec⟩ cr = ⟨.lineCr [] [], fs, some .badField⟩ := by
        simp [byte, nameByte, blankByte, valueByte, show cr ≠ colon by decide,
          show cr ≠ sp by decide, show cr ≠ tab by decide]
      have hend : byte ⟨.lineEnd, fs, ec⟩ cr = ⟨.blankCr, fs, ec⟩ := by simp [byte]
      rw [hcr, hname, hend]
      rcases Nat.lt_or_ge (p + 1) last with hlt' | hge
      · rw [slice_cons m hlt', read_cons, read_cons]
        simp [byte, crByte, hlf]
      · have hpl : last = p + 1 := by omega
        subst hpl
        simp [close, lineTail, headerLineEnd, hcr, hlf]
    · have hbyte : byte ⟨.lineEnd, fs, ec⟩ (m p) = byte ⟨.name [], fs, ec⟩ (m p) := by
        simp [byte, hcr, nameByte, blankByte, valueByte]
      rw [hbyte]

/-- An empty line, read in the chunk or looked up behind it, leaves the iterator on
the CR LF before it. -/
theorem close_read_blankLine {m : ℕ → UInt8} {p last : ℕ} (fs ec) (h : p ≤ last)
    (hcr : m p = cr) (hlf : m (p + 1) = lf) :
    (read ⟨.lineEnd, fs, ec⟩ (slice m p last)).close m last = ⟨p - 2, fs, ec⟩ := by
  have hend : byte ⟨.lineEnd, fs, ec⟩ cr = ⟨.blankCr, fs, ec⟩ := by simp [byte]
  rcases h.eq_or_lt with rfl | hlt
  · simp [close, hcr, hlf]
  · rw [slice_cons m hlt, read_cons, hcr, hend]
    rcases Nat.lt_or_ge (p + 1) last with hlt' | hge
    · have hclosed : byte ⟨.blankCr, fs, ec⟩ lf = ⟨.closed [], fs, ec⟩ := by simp [byte]
      rw [slice_cons m hlt', read_cons, hlf, hclosed, read_closed]
      simp only [close, List.nil_append, length_slice, BlockEnd.mk.injEq, and_self, and_true]
      omega
    · have hpl : last = p + 1 := by omega
      subst hpl
      simp [close, hlf]

theorem headerLoop_of_le (m : ℕ → UInt8) {last it : ℕ} (hs ec) (h : last ≤ it) :
    headerLoop m last (last - it) it hs ec = ⟨it, hs, ec⟩ := by
  rw [headerLoop_eq, if_neg (by omega)]

theorem Headers.insertNew_insertAll (hs : Headers) (fs : List (ByteString × ByteString))
    (n v : ByteString) :
    (hs.insertAll fs).insertNew (toLower n) v = hs.insertAll (fs ++ [(n, v)]) := by
  rw [Headers.insertAll_append]
  rfl

theorem headerLoop_lineTail (m : ℕ → UInt8) {last p : ℕ} (hs : Headers)
    (fs : List (ByteString × ByteString)) (ec) (h : last ≤ (headerLineEnd m p ec).it + 1) :
    (if (headerLineEnd m p ec).leave then
        (⟨(headerLineEnd m p ec).it, hs.insertAll fs, (headerLineEnd m p ec).ec⟩ : HeaderBlock)
      else headerLoop m last (last - ((headerLineEnd m p ec).it + 1))
        ((headerLineEnd m p ec).it + 1) (hs.insertAll fs) (headerLineEnd m p ec).ec) =
      ⟨(lineTail m p fs ec).it, hs.insertAll (lineTail m p fs ec).fields,
        (lineTail m p fs ec).ec⟩ := by
  rw [headerLoop_of_le m _ _ h]
  simp only [lineTail]
  split_ifs <;> rfl

/-- The pointer loop of `parse_message_header` is the byte machine run over the text
from the iterator to the end of the chunk. -/
theorem headerLoop_eq_read (m : ℕ → UInt8) {last it : ℕ} (hs : Headers)
    (fs : List (ByteString × ByteString)) (ec : ErrorCode) (h : it ≤ last) :
    headerLoop m last (last - it) it (hs.insertAll fs) ec =
      let e := (read ⟨.name [], fs, ec⟩ (slice m it last)).close m last
      ⟨e.it, hs.insertAll e.fields, e.ec⟩ := by
  induction hn : last - it using Nat.strong_induction_on generalizing it fs ec with
  | _ n ih =>
    subst hn
    rcases h.eq_or_lt with rfl | hlt
    · rw [headerLoop_of_le m _ _ le_rfl]
      simp [close]
    · rw [headerLoop_eq, if_pos hlt]
      dsimp only
      rcases read_parseMessageHeaderName m fs ec hlt with ⟨hle, hread, -⟩ | ⟨hname, hread⟩
      · have hit := le_parseMessageHeaderName m last it ec
        rw [hread]
        generalize parseMessageHeaderName m last it ec = name at hle hit ⊢
        have hv := read_parseMessageHeaderValue m name.text fs name.ec hle
        generalize parseMessageHeaderValue m last name.it name.ec = value at hv ⊢
        cases hv with
        | blanks hread =>
          have hend := le_headerLineEnd m last (some .incompleteMessageHeader)
          rw [hread, Headers.insertNew_insertAll,
            headerLoop_lineTail m _ _ _ (Nat.le_succ_of_le hend)]
          rfl
        | value v hread =>
          have hend := le_headerLineEnd m last name.ec
          rw [hread, Headers.insertNew_insertAll,
            headerLoop_lineTail m _ _ _ (Nat.le_succ_of_le hend)]
          rfl
        | lineCr q v hq hql hcr hread =>
          rw [Headers.insertNew_insertAll]
          set v' := if m (q + 1) = lf then v else [] with hv'
          set ec' := if m (q + 1) = lf then name.ec else some .badFieldValue with hec'
          have hline : headerLineEnd m q ec' = headerLineEnd m q name.ec :=
            headerLineEnd_lineCr hcr name.ec
          rw [← slice_append m (show name.it ≤ q + 1 by omega) (show q + 1 ≤ last by omega),
            read_append, hread, hline]
          rcases Nat.lt_or_ge (q + 1) last with hlt' | hge
          · set ec'' := if m (q + 1) = lf then name.ec else some .invalidMessageHeaderCrlf
              with hec''
            rw [slice_cons m hlt', read_cons, byte_lineCr, ← hv', ← hec'']
            by_cases hblank : m (q + 2) = cr ∧ m (q + 3) = lf
            · rw [close_read_blankLine _ _ (by omega) hblank.1 hblank.2]
              by_cases hlf : m (q + 1) = lf <;> simp [headerLineEnd, hcr, hblank, hlf, hec'']
            · have htest : headerLineEnd m q name.ec = ⟨q + 1, ec'', false⟩ := by
                by_cases hlf : m (q + 1) = lf <;> simp [headerLineEnd, hcr, hblank, hlf, hec'']
              rw [close_read_lineEnd _ _ (by omega) hblank, htest]
              simp only [Bool.false_eq_true, if_false]
              exact ih (last - (q + 1 + 1)) (by omega) _ _ (by omega) rfl
          · have hql' : last = q + 1 := by omega
            subst hql'
            have hend := le_headerLineEnd m q name.ec
            rw [headerLoop_lineTail m _ _ _ (by omega)]
            simp [close, hv']
        | bad q hq hql hcr hread =>
          have htest : headerLineEnd m q (some .badFieldValue) =
              ⟨q, some .badFieldValue, false⟩ := by
            simp [headerLineEnd, hcr]
          rw [Headers.insertNew_insertAll, htest,
            ← slice_append m (show name.it ≤ q + 1 by omega) (show q + 1 ≤ last by omega),
            read_append, hread]
          simp only [Bool.false_eq_true, if_false]
          exact ih (last - (q + 1)) (by omega) _ _ (by omega) rfl
      · -- the chunk ends inside the name: the value scanner starts behind it
        have hvalue : parseMessageHeaderValue m last (last + 1) ec =
            ⟨last + 1, [], some .incompleteMessageHeader⟩ := by
          simp only [parseMessageHeaderValue]
          rw [scan_of_le (by omega), if_pos (by omega)]
        have hend := le_headerLineEnd m (last + 1) (some .incompleteMessageHeader)
        have hne : slice m it last ≠ [] := by rw [slice_cons m hlt]; simp
        rw [hread, hname, hvalue, Headers.insertNew_insertAll,
          headerLoop_lineTail m _ _ _ ((Nat.le_succ last).trans (Nat.le_succ_of_le hend))]
        simp [close, hne]

theorem parseMessageHeader_eq_read (m : ℕ → UInt8) {last it : ℕ} (hs : Headers) (ec : ErrorCode)
    (h : it + 2 ≤ last) :
    parseMessageHeader m last it hs ec =
      let e := (read ⟨.name [], [], ec⟩ (slice m it last)).close m last
      (⟨e.it, hs.insertAll e.fields, e.ec⟩, .parseHeadersFinished) := by
  have hloop := headerLoop_eq_read m hs [] ec (show it ≤ last by omega)
  rw [parseMessageHeader, if_neg (by omega), ← hs.insertAll_nil, hloop]
  rfl

end Webcrown.Http
