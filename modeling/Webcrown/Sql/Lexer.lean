import Mathlib

/-!
# Lexical structure of SQL texts

Tokens of PostgreSQL's SQL with `standard_conforming_strings` on: character strings, in
which two quotes stand for one and which go on behind a line break, unsigned integers,
words and single symbols; blanks and comments separate them. Other forms (quoted
identifiers, dollar quotes, prefixed strings, fractions, operators of several characters,
comments inside a string's continuation) are not read, and the lexer gives up on them.
-/

namespace Webcrown.Sql

abbrev Text := List UInt8

def quote : UInt8 := 39
def minus : UInt8 := 45
def plus : UInt8 := 43
def comma : UInt8 := 44
def lparen : UInt8 := 40
def rparen : UInt8 := 41
def semicolon : UInt8 := 59

inductive Token
  | string (value : Text)
  | number (digits : Text)
  | word (text : Text)
  | symbol (c : UInt8)
  deriving DecidableEq

def isBlank (c : UInt8) : Bool := c == 32 || (9 ≤ c && c ≤ 13)

def isNewline (c : UInt8) : Bool := c == 10 || c == 13

def isDigit (c : UInt8) : Bool := 48 ≤ c && c ≤ 57

/-- Letters, the underscore and all bytes beyond ASCII. -/
def startsWord (c : UInt8) : Bool :=
  (65 ≤ c && c ≤ 90) || (97 ≤ c && c ≤ 122) || c == 95 || 128 ≤ c

def inWord (c : UInt8) : Bool := startsWord c || isDigit c || c == 36

/-- The characters of operators: `~ ! @ # ^ & | ? + - * / % < > =` and the backquote. -/
def isOperator (c : UInt8) : Bool :=
  [126, 33, 64, 35, 94, 38, 124, 96, 63, 43, 45, 42, 47, 37, 60, 62, 61].contains c

/-- What follows the closing quote of a string: `some (some rest)` if the string goes on in
`rest`, `some none` if it ends. -/
def continuation (s : Text) : Option (Option Text) :=
  let rest := s.dropWhile isBlank
  if rest.take 2 = [minus, minus] then none
  else if rest.head? = some quote ∧ (s.takeWhile isBlank).any isNewline then some (some rest.tail)
  else some none

/-- The value of a string and the text behind it, from behind its opening quote on. -/
def quoted : ℕ → Text → Option (Text × Text)
  | 0, _ => none
  | _ + 1, [] => none
  | fuel + 1, c :: s =>
    if c = quote then
      if s.head? = some quote then (quoted fuel s.tail).map fun v => (quote :: v.1, v.2)
      else
        match continuation s with
        | none => none
        | some none => some ([], s)
        | some (some rest) => quoted fuel rest
    else (quoted fuel s).map fun v => (c :: v.1, v.2)

/-- The text behind a block comment, from inside it on; comments nest. -/
def blockComment : ℕ → Text → Option Text
  | depth, c :: d :: s =>
    if c = 42 ∧ d = 47 then
      match depth with
      | 0 => some s
      | depth + 1 => blockComment depth s
    else if c = 47 ∧ d = 42 then blockComment (depth + 1) s
    else blockComment depth (d :: s)
  | _, _ => none

/-- The token that a text begins with, or `none` for a blank or a comment, and the rest. -/
def nextToken (c : UInt8) (s : Text) : Option (Option Token × Text) :=
  if isBlank c then some (none, s)
  else if c = minus ∧ s.head? = some minus then some (none, s.dropWhile fun d => !isNewline d)
  else if c = 47 ∧ s.head? = some 42 then (blockComment 0 s.tail).map fun rest => (none, rest)
  else if c = quote then (quoted s.length s).map fun v => (some (.string v.1), v.2)
  else if isDigit c then
    let rest := s.dropWhile isDigit
    if rest.head?.any (fun d => inWord d || d == 46) then none
    else some (some (.number (c :: s.takeWhile isDigit)), rest)
  else if startsWord c then
    let rest := s.dropWhile inWord
    if rest.head?.any (fun d => d == quote || d == 38) then none
    else some (some (.word (c :: s.takeWhile inWord)), rest)
  else if c = 34 ∨ c = 36 ∨ c = 46 then none
  else if isOperator c ∧ s.head?.any isOperator then none
  else if c = 58 ∧ s.head?.any (fun d => d == 58 || d == 61) then none
  else some (some (.symbol c), s)

/-- The tokens of a text. Every token and every blank takes at least one byte. -/
def lexFuel : ℕ → Text → Option (List Token)
  | _, [] => some []
  | 0, _ :: _ => none
  | fuel + 1, c :: s =>
    match nextToken c s with
    | none => none
    | some (token, rest) => (lexFuel fuel rest).map fun tokens => token.toList ++ tokens

def lex (s : Text) : Option (List Token) := lexFuel s.length s

section Quoted

theorem continuation_some {s rest : Text} (h : continuation s = some (some rest)) :
    ∃ b, s = b ++ quote :: rest ∧ ∀ c ∈ b, isBlank c = true := by
  unfold continuation at h
  dsimp only at h
  split_ifs at h with hcomment hquote
  swap
  · cases h
  rw [Option.some.injEq, Option.some.injEq] at h
  refine ⟨s.takeWhile isBlank, ?_, fun c hc => List.mem_takeWhile_imp hc⟩
  have hrest : s.dropWhile isBlank = quote :: rest := by
    cases hd : s.dropWhile isBlank with
    | nil => simp [hd] at hquote
    | cons d r =>
      rw [hd] at hquote h
      rw [← h, show d = quote by simpa using hquote.1, List.tail_cons]
  rw [← hrest, List.takeWhile_append_dropWhile]

/-- What is read as a value: the value itself, and more only where quotes are doubled or the
string is continued. What is skipped there are quotes and blanks. -/
structure ReadAs (u w : Text) : Prop where
  length_le : w.length ≤ u.length
  exact : u.length ≤ w.length → u = w ∧ quote ∉ w
  count : ∀ c, c ≠ quote → isBlank c = false → u.count c = w.count c

theorem ReadAs.nil : ReadAs [] [] := ⟨le_rfl, fun _ => ⟨rfl, by simp⟩, by simp⟩

theorem ReadAs.char {c : UInt8} {u w : Text} (hc : c ≠ quote) (h : ReadAs u w) :
    ReadAs (c :: u) (c :: w) where
  length_le := by simpa using h.length_le
  exact hle := by
    obtain ⟨rfl, hnot⟩ := h.exact (by simpa using hle)
    exact ⟨rfl, List.not_mem_cons_of_ne_of_not_mem hc.symm hnot⟩
  count d hd hblank := by rw [List.count_cons, List.count_cons, h.count d hd hblank]

theorem ReadAs.double {u w : Text} (h : ReadAs u w) :
    ReadAs (quote :: quote :: u) (quote :: w) where
  length_le := by
    have := h.length_le
    simp only [List.length_cons]
    omega
  exact hle := by
    have := h.length_le
    simp only [List.length_cons] at hle
    omega
  count d hd hblank := by
    have hne : (quote == d) = false := beq_eq_false_iff_ne.mpr hd.symm
    simp [List.count_cons, hne, h.count d hd hblank]

theorem ReadAs.continued {b u w : Text} (hb : ∀ c ∈ b, isBlank c = true) (h : ReadAs u w) :
    ReadAs (quote :: (b ++ quote :: u)) w where
  length_le := by
    have := h.length_le
    simp only [List.length_cons, List.length_append]
    omega
  exact hle := by
    have := h.length_le
    simp only [List.length_cons, List.length_append] at hle
    omega
  count d hd hblank := by
    have hne : (quote == d) = false := beq_eq_false_iff_ne.mpr hd.symm
    have hnot : d ∉ b := fun hmem => by simp [hb d hmem] at hblank
    simp [List.count_cons, hne, List.count_eq_zero_of_not_mem hnot, h.count d hd hblank]

theorem quoted_spec {fuel : ℕ} {t w rest : Text} (h : quoted fuel t = some (w, rest)) :
    ∃ u, t = u ++ quote :: rest ∧ ReadAs u w := by
  induction fuel generalizing t w with
  | zero => cases h
  | succ fuel ih =>
    cases t with
    | nil => cases h
    | cons c s =>
      rw [quoted] at h
      by_cases hc : c = quote
      · rw [if_pos hc] at h
        subst hc
        by_cases hdouble : s.head? = some quote
        · rw [if_pos hdouble, Option.map_eq_some_iff] at h
          obtain ⟨⟨v, r⟩, hv, hvr⟩ := h
          obtain ⟨rfl, rfl⟩ := Prod.mk.inj hvr
          obtain ⟨u, hu, hread⟩ := ih hv
          obtain ⟨s, rfl⟩ := List.head?_eq_some_iff.mp hdouble
          exact ⟨quote :: quote :: u, by rw [List.tail_cons] at hu; rw [hu]; rfl, hread.double⟩
        · rw [if_neg hdouble] at h
          cases hcont : continuation s with
          | none => rw [hcont] at h; cases h
          | some next =>
            rw [hcont] at h
            cases next with
            | none =>
              obtain ⟨rfl, rfl⟩ := Prod.mk.inj (Option.some.inj h)
              exact ⟨[], rfl, ReadAs.nil⟩
            | some r =>
              obtain ⟨u, rfl, hread⟩ := ih h
              obtain ⟨b, rfl, hb⟩ := continuation_some hcont
              exact ⟨quote :: (b ++ quote :: u), by simp, hread.continued hb⟩
      · rw [if_neg hc, Option.map_eq_some_iff] at h
        obtain ⟨⟨v, r⟩, hv, hvr⟩ := h
        obtain ⟨rfl, rfl⟩ := Prod.mk.inj hvr
        obtain ⟨u, rfl, hread⟩ := ih hv
        exact ⟨c :: u, rfl, hread.char hc⟩

/-- A value without quotes is read up to the quote behind it. -/
theorem quoted_of_notMem {fuel : ℕ} {v rest : Text} (hv : quote ∉ v) (hfuel : v.length < fuel)
    (hrest : rest.head? ≠ some quote) (hend : continuation rest = some none) :
    quoted fuel (v ++ quote :: rest) = some (v, rest) := by
  induction v generalizing fuel with
  | nil =>
    obtain ⟨fuel, rfl⟩ : ∃ f, fuel = f + 1 := ⟨fuel - 1, by simp at hfuel; omega⟩
    rw [List.nil_append, quoted, if_pos rfl, if_neg hrest, hend]
  | cons c v ih =>
    obtain ⟨fuel, rfl⟩ : ∃ f, fuel = f + 1 := ⟨fuel - 1, by simp at hfuel; omega⟩
    rw [List.mem_cons, not_or] at hv
    rw [List.cons_append, quoted, if_neg fun hc => hv.1 hc.symm,
      ih hv.2 (by simpa using hfuel)]
    rfl

end Quoted

section Lex

theorem length_blockComment {depth : ℕ} {s rest : Text} (h : blockComment depth s = some rest) :
    rest.length ≤ s.length := by
  fun_induction blockComment depth s with
  | case1 c d s hend =>
    obtain rfl := Option.some.inj h
    simp
    omega
  | case2 c d s hend depth ih =>
    have := ih h
    simp only [List.length_cons]
    omega
  | case3 depth c d s hend hopen ih =>
    have := ih h
    simp only [List.length_cons]
    omega
  | case4 depth c d s hend hopen ih =>
    have := ih h
    simp only [List.length_cons] at this ⊢
    omega
  | case5 => cases h

theorem length_nextToken {c : UInt8} {s rest : Text} {token : Option Token}
    (h : nextToken c s = some (token, rest)) : rest.length ≤ s.length := by
  unfold nextToken at h
  dsimp only at h
  split_ifs at h with hblank hline hblock hquote hdigit _ hword
  · obtain ⟨-, rfl⟩ := Prod.mk.inj (Option.some.inj h)
    exact le_rfl
  · obtain ⟨-, rfl⟩ := Prod.mk.inj (Option.some.inj h)
    exact (List.dropWhile_suffix _).length_le
  · obtain ⟨r, hr, hrest⟩ := Option.map_eq_some_iff.mp h
    obtain ⟨-, rfl⟩ := Prod.mk.inj hrest
    exact (length_blockComment hr).trans (by simp)
  · obtain ⟨⟨v, r⟩, hv, hrest⟩ := Option.map_eq_some_iff.mp h
    obtain ⟨-, rfl⟩ := Prod.mk.inj hrest
    obtain ⟨u, hu, -⟩ := quoted_spec hv
    rw [hu]
    simp
    omega
  all_goals
    obtain ⟨-, rfl⟩ := Prod.mk.inj (Option.some.inj h)
    first
      | exact (List.dropWhile_suffix _).length_le
      | exact le_rfl

theorem lexFuel_eq {fuel : ℕ} {s : Text} (h : s.length ≤ fuel) : lexFuel fuel s = lex s := by
  suffices hall : ∀ n fuel fuel' (s : Text), s.length ≤ n → s.length ≤ fuel → s.length ≤ fuel' →
      lexFuel fuel s = lexFuel fuel' s from hall s.length fuel s.length s le_rfl h le_rfl
  intro n
  induction n with
  | zero =>
    intro fuel fuel' s hn _ _
    obtain rfl := List.eq_nil_of_length_eq_zero (Nat.le_zero.mp hn)
    simp [lexFuel]
  | succ n ih =>
    intro fuel fuel' s hn hf hf'
    cases s with
    | nil => simp [lexFuel]
    | cons c s =>
      simp only [List.length_cons] at hn hf hf'
      obtain ⟨fuel, rfl⟩ : ∃ f, fuel = f + 1 := ⟨fuel - 1, by omega⟩
      obtain ⟨fuel', rfl⟩ : ∃ f, fuel' = f + 1 := ⟨fuel' - 1, by omega⟩
      simp only [lexFuel]
      cases htoken : nextToken c s with
      | none => rfl
      | some next =>
        have hlen : next.2.length ≤ s.length := length_nextToken htoken
        dsimp only
        rw [ih fuel fuel' next.2 (by omega) (by omega) (by omega)]

@[simp] theorem lex_nil : lex [] = some [] := rfl

theorem lex_cons (c : UInt8) (s : Text) :
    lex (c :: s) = (nextToken c s).bind fun next =>
      (lex next.2).map fun tokens => next.1.toList ++ tokens := by
  rw [lex, List.length_cons, lexFuel]
  cases htoken : nextToken c s with
  | none => rfl
  | some next =>
    dsimp only [Option.bind]
    have hlen : next.2.length ≤ s.length := length_nextToken htoken
    rw [lexFuel_eq hlen]

theorem lex_blank {c : UInt8} (h : isBlank c = true) (s : Text) : lex (c :: s) = lex s := by
  rw [lex_cons, nextToken, if_pos h]
  simp

theorem lex_string {v rest : Text} (hv : quote ∉ v) (hrest : rest.head? ≠ some quote)
    (hend : continuation rest = some none) :
    lex (quote :: (v ++ quote :: rest)) = (lex rest).map (Token.string v :: ·) := by
  have htoken : nextToken quote (v ++ quote :: rest) = some (some (.string v), rest) := by
    rw [nextToken, if_neg (by decide), if_neg (fun h => absurd h.1 (by decide)),
      if_neg (fun h => absurd h.1 (by decide)), if_pos rfl,
      quoted_of_notMem hv (by simp) hrest hend]
    rfl
  rw [lex_cons, htoken]
  rfl

theorem not_isBlank_of_isDigit {c : UInt8} (h : isDigit c = true) : isBlank c = false := by
  simp only [isDigit, isBlank, Bool.and_eq_true, decide_eq_true_eq, UInt8.le_iff_toNat_le,
    Bool.or_eq_false_iff, beq_eq_false_iff_ne, ne_eq, ← UInt8.toNat_inj, Bool.and_eq_false_iff,
    decide_eq_false_iff_not] at h ⊢
  change 48 ≤ c.toNat ∧ c.toNat ≤ 57 at h
  change ¬ c.toNat = 32 ∧ (¬ 9 ≤ c.toNat ∨ ¬ c.toNat ≤ 13)
  omega

theorem not_isBlank_of_startsWord {c : UInt8} (h : startsWord c = true) :
    isBlank c = false ∧ isDigit c = false := by
  simp only [startsWord, isDigit, isBlank, Bool.and_eq_true, Bool.or_eq_true, decide_eq_true_eq,
    UInt8.le_iff_toNat_le, Bool.or_eq_false_iff, beq_eq_false_iff_ne, beq_iff_eq, ne_eq,
    ← UInt8.toNat_inj, Bool.and_eq_false_iff, decide_eq_false_iff_not] at h ⊢
  change ((65 ≤ c.toNat ∧ c.toNat ≤ 90 ∨ 97 ≤ c.toNat ∧ c.toNat ≤ 122) ∨ c.toNat = 95) ∨
    128 ≤ c.toNat at h
  change (¬ c.toNat = 32 ∧ (¬ 9 ≤ c.toNat ∨ ¬ c.toNat ≤ 13)) ∧
    (¬ 48 ≤ c.toNat ∨ ¬ c.toNat ≤ 57)
  omega

theorem span_append {f : UInt8 → Bool} {s rest : Text} (hs : ∀ c ∈ s, f c = true)
    (hrest : ∀ d, rest.head? = some d → f d = false) :
    (s ++ rest).takeWhile f = s ∧ (s ++ rest).dropWhile f = rest := by
  rw [List.takeWhile_append_of_pos hs, List.dropWhile_append_of_pos hs]
  cases rest with
  | nil => simp
  | cons d rest => simp [hrest d rfl]

theorem lex_number {n rest : Text} (hne : n ≠ []) (hn : ∀ c ∈ n, isDigit c = true)
    (hrest : ∀ d, rest.head? = some d → inWord d = false ∧ d ≠ 46) :
    lex (n ++ rest) = (lex rest).map (Token.number n :: ·) := by
  obtain ⟨c, n, rfl⟩ := List.exists_cons_of_ne_nil hne
  have hc := hn c (by simp)
  have hnot : ∀ d, isDigit d = false → ¬ c = d := by
    rintro d hd rfl
    rw [hc] at hd
    cases hd
  have htail : ∀ d ∈ n, isDigit d = true := fun d hd => hn d (by simp [hd])
  have hboundary : ∀ d, rest.head? = some d → isDigit d = false := by
    intro d hd
    have := (hrest d hd).1
    simp only [inWord, Bool.or_eq_false_iff] at this
    exact this.1.2
  obtain ⟨htake, hdrop⟩ := span_append htail hboundary
  have hstop : ¬ rest.head?.any (fun d => inWord d || d == 46) = true := by
    cases rest with
    | nil => simp
    | cons d rest => simp [hrest d rfl]
  have htoken : nextToken c (n ++ rest) = some (some (.number (c :: n)), rest) := by
    rw [nextToken, if_neg (by simp [not_isBlank_of_isDigit hc]),
      if_neg fun h => hnot minus (by decide) h.1, if_neg fun h => hnot 47 (by decide) h.1,
      if_neg (hnot quote (by decide)), if_pos hc]
    simp only [htake, hdrop, if_neg hstop]
  rw [List.cons_append, lex_cons, htoken]
  rfl

theorem lex_word {c : UInt8} {w rest : Text} (hc : startsWord c = true)
    (hw : ∀ d ∈ w, inWord d = true)
    (hrest : ∀ d, rest.head? = some d → inWord d = false ∧ d ≠ quote ∧ d ≠ 38) :
    lex (c :: w ++ rest) = (lex rest).map (Token.word (c :: w) :: ·) := by
  obtain ⟨hblank, hdigit⟩ := not_isBlank_of_startsWord hc
  have hnot : ∀ d, startsWord d = false → ¬ c = d := by
    rintro d hd rfl
    rw [hc] at hd
    cases hd
  obtain ⟨htake, hdrop⟩ := span_append hw fun d hd => (hrest d hd).1
  have hstop : ¬ rest.head?.any (fun d => d == quote || d == 38) = true := by
    cases rest with
    | nil => simp
    | cons d rest => simp [hrest d rfl]
  have htoken : nextToken c (w ++ rest) = some (some (.word (c :: w)), rest) := by
    rw [nextToken, if_neg (by simp [hblank]), if_neg fun h => hnot minus (by decide) h.1,
      if_neg fun h => hnot 47 (by decide) h.1, if_neg (hnot quote (by decide)),
      if_neg (by simp [hdigit]), if_pos hc]
    simp only [htake, hdrop, if_neg hstop]
  rw [List.cons_append, lex_cons, htoken]
  rfl

theorem lex_symbol {c : UInt8} {s : Text} (h : nextToken c s = some (some (.symbol c), s)) :
    lex (c :: s) = (lex s).map (Token.symbol c :: ·) := by
  rw [lex_cons, h]
  rfl

theorem nextToken_minus {s : Text} (h : s.head?.any isOperator = false) :
    nextToken minus s = some (some (.symbol minus), s) := by
  have hhead : s.head? ≠ some minus := by
    intro hm
    rw [hm] at h
    revert h
    decide
  rw [nextToken, if_neg (by decide), if_neg fun hm => hhead hm.2,
    if_neg fun hs => absurd hs.1 (by decide), if_neg (by decide), if_neg (by decide),
    if_neg (by decide), if_neg (by decide), if_neg (by simp [h]),
    if_neg fun hs => absurd hs.1 (by decide)]

theorem nextToken_colon {s : Text} (h : s.head?.any (fun d => d == 58 || d == 61) = false) :
    nextToken 58 s = some (some (.symbol 58), s) := by
  rw [nextToken, if_neg (by decide), if_neg fun hs => absurd hs.1 (by decide),
    if_neg fun hs => absurd hs.1 (by decide), if_neg (by decide), if_neg (by decide),
    if_neg (by decide), if_neg (by decide), if_neg fun hs => absurd hs.1 (by decide),
    if_neg (by simp [h])]

/-- Commas, parentheses and semicolons are tokens wherever they stand. -/
theorem nextToken_punctuation {c : UInt8} (h : c ∈ [comma, lparen, rparen, semicolon]) (s : Text) :
    nextToken c s = some (some (.symbol c), s) := by
  have hc : isBlank c = false ∧ c ≠ minus ∧ c ≠ 47 ∧ c ≠ quote ∧ isDigit c = false ∧
      startsWord c = false ∧ ¬ (c = 34 ∨ c = 36 ∨ c = 46) ∧ isOperator c = false ∧ c ≠ 58 := by
    revert h c
    decide +kernel
  obtain ⟨hblank, hminus, hslash, hquote, hdigit, hword, hother, hop, hcolon⟩ := hc
  rw [nextToken, if_neg (by simp [hblank]), if_neg fun hs => hminus hs.1,
    if_neg fun hs => hslash hs.1, if_neg hquote, if_neg (by simp [hdigit]),
    if_neg (by simp [hword]), if_neg hother, if_neg (by simp [hop]), if_neg fun hs => hcolon hs.1]

end Lex

/-- A text `v` between quotes is read as the string `v` only if it holds no quote. Behind it
stands nothing but a comma or text without quotes, so a string that went on would have become
longer by the comma, or would not end. -/
theorem quote_notMem_of_lex {v r : Text} {tokens : List Token}
    (h : lex (quote :: (v ++ quote :: r)) = some (.string v :: tokens))
    (hr : r.head? = some comma ∨ quote ∉ r) : quote ∉ v := by
  rw [lex_cons, nextToken, if_neg (by decide), if_neg (fun hs => absurd hs.1 (by decide)),
    if_neg (fun hs => absurd hs.1 (by decide)), if_pos rfl] at h
  cases hread : quoted (v ++ quote :: r).length (v ++ quote :: r) with
  | none =>
    rw [hread] at h
    cases h
  | some value =>
    obtain ⟨w, rest⟩ := value
    rw [hread] at h
    obtain ⟨ts, hts, hval⟩ := Option.map_eq_some_iff.mp h
    obtain rfl : w = v := by simpa using (List.cons.inj hval).1
    obtain ⟨u, hu, hreadAs⟩ := quoted_spec hread
    rcases hreadAs.length_le.eq_or_lt with he | hlt
    · exact (hreadAs.exact he.ge).2
    · exfalso
      rcases List.append_eq_append_iff.mp hu with ⟨a, hua, hra⟩ | ⟨a, hwa, -⟩
      · cases a with
        | nil =>
          rw [hua, List.append_nil] at hlt
          exact lt_irrefl _ hlt
        | cons q z =>
          rw [List.cons_append, List.cons.injEq] at hra
          obtain ⟨rfl, rfl⟩ := hra
          cases z with
          | nil =>
            rcases hr with hr | hr
            · rw [List.nil_append, List.head?_cons, Option.some.injEq] at hr
              exact absurd hr (by decide)
            · simp at hr
          | cons d z =>
            rcases hr with hr | hr
            · obtain rfl : d = comma := by simpa using hr
              have := hreadAs.count comma (by decide) (by decide)
              rw [hua, List.count_append, List.count_cons, List.count_cons_self] at this
              omega
            · simp at hr
      · rw [hwa, List.length_append] at hlt
        omega

end Webcrown.Sql
