import Webcrown.Sql.Lexer

/-!
# Rows of literals

The tokens of one literal, and of literals with commas between them up to the closing
parenthesis of the row. A text of items is such a row exactly if every item is written
as a literal of its own.
-/

namespace Webcrown.Sql

/-- One literal: a string, a number, which may have a sign, or one of the words `true` and
`false`. -/
def OneLiteral (tokens : List Token) : Prop :=
  (∃ v, tokens = [.string v]) ∨
    (∃ n, tokens = [.number n] ∨ tokens = [.symbol minus, .number n] ∨
      tokens = [.symbol plus, .number n]) ∨
    tokens = [.word [116, 114, 117, 101]] ∨ tokens = [.word [102, 97, 108, 115, 101]]

/-- Literals with commas between them, a closing parenthesis and a semicolon. -/
def literalRow : List (List Token) → List Token
  | [] => [.symbol rparen, .symbol semicolon]
  | [ts] => ts ++ [.symbol rparen, .symbol semicolon]
  | ts :: ts' :: rest => ts ++ .symbol comma :: literalRow (ts' :: rest)

/-- What stands behind a literal in a row. -/
def isSeparator (t : Token) : Bool := t == .symbol comma || t == .symbol rparen

/-- A text behind which no literal goes on: it begins with a comma or a line break, and no
string continues in it. -/
structure EndsLiteral (r : Text) : Prop where
  head : ∀ c, r.head? = some c → c = comma ∨ c = 10
  ends : continuation r = some none

theorem endsLiteral_nil : EndsLiteral [] := ⟨by simp, rfl⟩

theorem endsLiteral_comma (r : Text) : EndsLiteral (comma :: r) := by
  refine ⟨by simp, ?_⟩
  have hdrop : (comma :: r).dropWhile isBlank = comma :: r :=
    List.dropWhile_cons_of_neg (by decide)
  rw [continuation, hdrop]
  simp [comma, minus, quote]

def rowEnd : Text := [10, rparen, semicolon]

theorem endsLiteral_rowEnd : EndsLiteral rowEnd := ⟨by simp [rowEnd], by decide⟩

theorem lex_rowEnd : lex rowEnd = some [.symbol rparen, .symbol semicolon] := by
  have hend : lex [semicolon] = some [.symbol semicolon] :=
    lex_symbol (nextToken_punctuation (by simp) [])
  have hparen : lex [rparen, semicolon] = (lex [semicolon]).map (Token.symbol rparen :: ·) :=
    lex_symbol (nextToken_punctuation (by simp) [semicolon])
  have hblank : lex rowEnd = lex [rparen, semicolon] := lex_blank (by decide) _
  rw [hblank, hparen, hend]
  rfl

theorem lex_comma (r : Text) : lex (comma :: r) = (lex r).map (Token.symbol comma :: ·) :=
  lex_symbol (nextToken_punctuation (by simp) r)

theorem OneLiteral.not_isSeparator {ts : List Token} (h : OneLiteral ts) :
    ∀ t ∈ ts, isSeparator t = false := by
  rcases h with ⟨v, rfl⟩ | ⟨n, rfl | rfl | rfl⟩ | rfl | rfl <;>
    simp [isSeparator, minus, plus, comma, rparen]

theorem EndsLiteral.separates {r : Text} (h : EndsLiteral r) :
    ∀ d, r.head? = some d → inWord d = false ∧ d ≠ 46 ∧ d ≠ quote ∧ d ≠ 38 := by
  intro d hd
  rcases h.head d hd with rfl | rfl <;> decide

theorem lex_digits {n r : Text} (hne : n ≠ []) (hn : ∀ c ∈ n, isDigit c = true)
    (hr : EndsLiteral r) : lex (n ++ r) = (lex r).map (Token.number n :: ·) :=
  lex_number hne hn fun d hd => ⟨(hr.separates d hd).1, (hr.separates d hd).2.1⟩

theorem not_isOperator_of_isDigit {c : UInt8} (h : isDigit c = true) :
    isOperator c = false ∧ c ≠ 58 ∧ c ≠ 61 := by
  refine ⟨?_, ?_, ?_⟩
  · rw [Bool.eq_false_iff]
    intro hop
    rw [isOperator, List.contains_eq_mem, decide_eq_true_eq] at hop
    revert h
    fin_cases hop <;> decide
  · rintro rfl
    exact absurd h (by decide)
  · rintro rfl
    exact absurd h (by decide)

theorem lex_minus {n : Text} (r : Text) (hne : n ≠ []) (hn : ∀ c ∈ n, isDigit c = true) :
    lex (minus :: (n ++ r)) = (lex (n ++ r)).map (Token.symbol minus :: ·) := by
  obtain ⟨c, n, rfl⟩ := List.exists_cons_of_ne_nil hne
  refine lex_symbol (nextToken_minus ?_)
  simp [(not_isOperator_of_isDigit (hn c (by simp))).1]

theorem lex_quoted {v r : Text} (hv : quote ∉ v) (hr : EndsLiteral r) :
    lex (quote :: (v ++ quote :: r)) = (lex r).map ([Token.string v] ++ ·) :=
  lex_string hv (fun hq => (hr.separates _ hq).2.2.1 rfl) hr.ends

theorem lex_boolean (b : Bool) {r : Text} (hr : EndsLiteral r) :
    ∃ ts, OneLiteral ts ∧
      lex ((if b then [116, 114, 117, 101] else [102, 97, 108, 115, 101]) ++ r) =
        (lex r).map (ts ++ ·) := by
  have hrest : ∀ d, r.head? = some d → inWord d = false ∧ d ≠ quote ∧ d ≠ 38 := fun d hd =>
    ⟨(hr.separates d hd).1, (hr.separates d hd).2.2⟩
  cases b with
  | true =>
    have hw : ∀ d ∈ [114, 117, 101], inWord d = true := List.all_eq_true.mp (by decide)
    exact ⟨[.word [116, 114, 117, 101]], .inr (.inr (.inl rfl)), lex_word (by decide) hw hrest⟩
  | false =>
    have hw : ∀ d ∈ [97, 108, 115, 101], inWord d = true := List.all_eq_true.mp (by decide)
    exact ⟨[.word [102, 97, 108, 115, 101]], .inr (.inr (.inr rfl)),
      lex_word (by decide) hw hrest⟩

/-- A number before a colon, with or without a sign, is no literal of a row: the colon stands
where the literal would have ended. -/
theorem lex_clock_ne {sign h m : Text} (hsign : sign = [] ∨ sign = [minus]) (hne : h ≠ [])
    (hh : ∀ c ∈ h, isDigit c = true) (hmne : m ≠ []) (hm : ∀ c ∈ m, isDigit c = true)
    (r : Text) {ts rest : List Token} (hts : OneLiteral ts)
    (hrest : ∀ t, rest.head? = some t → isSeparator t = true) :
    lex (sign ++ (h ++ 58 :: (m ++ r))) ≠ some (ts ++ rest) := by
  have hcolon : lex (58 :: (m ++ r)) = (lex (m ++ r)).map (Token.symbol 58 :: ·) := by
    obtain ⟨c, m, rfl⟩ := List.exists_cons_of_ne_nil hmne
    refine lex_symbol (nextToken_colon ?_)
    simp [(not_isOperator_of_isDigit (hm c (by simp))).2]
  have hnumber : lex (h ++ 58 :: (m ++ r)) =
      (lex (m ++ r)).map fun tokens => Token.number h :: Token.symbol 58 :: tokens := by
    rw [lex_number hne hh (by rintro d hd; obtain rfl := Option.some.inj hd; decide), hcolon,
      Option.map_map]
    rfl
  have hhead : ∀ tokens, Token.number h :: Token.symbol 58 :: tokens ≠ ts ++ rest ∧
      Token.symbol minus :: Token.number h :: Token.symbol 58 :: tokens ≠ ts ++ rest := by
    intro tokens
    have hstop : ∀ tokens, Token.symbol 58 :: tokens ≠ rest := by
      rintro tokens rfl
      exact absurd (hrest _ rfl) (by decide)
    rcases hts with ⟨v, rfl⟩ | ⟨n, rfl | rfl | rfl⟩ | rfl | rfl <;>
      simp [hstop, minus, plus]
  intro hlex
  rcases hsign with rfl | rfl
  · rw [List.nil_append, hnumber, Option.map_eq_some_iff] at hlex
    obtain ⟨tokens, -, htokens⟩ := hlex
    exact (hhead tokens).1 htokens
  · rw [List.singleton_append, lex_minus _ hne hh, hnumber, Option.map_map,
      Option.map_eq_some_iff] at hlex
    obtain ⟨tokens, -, htokens⟩ := hlex
    exact (hhead tokens).2 htokens

theorem append_separator_inj {ts ts' rest rest' : List Token} {s s' : Token}
    (hts : ∀ t ∈ ts, isSeparator t = false) (hts' : ∀ t ∈ ts', isSeparator t = false)
    (hs : isSeparator s = true) (hs' : isSeparator s' = true)
    (h : ts ++ s :: rest = ts' ++ s' :: rest') : ts = ts' ∧ s = s' ∧ rest = rest' := by
  induction ts generalizing ts' with
  | nil =>
    cases ts' with
    | nil => simpa using h
    | cons t' ts' =>
      rw [List.nil_append, List.cons_append, List.cons.injEq] at h
      rw [h.1, hts' t' (by simp)] at hs
      cases hs
  | cons t ts ih =>
    cases ts' with
    | nil =>
      rw [List.nil_append, List.cons_append, List.cons.injEq] at h
      rw [← h.1, hts t (by simp)] at hs'
      cases hs'
    | cons t' ts' =>
      rw [List.cons_append, List.cons_append, List.cons.injEq] at h
      obtain ⟨rfl, htail⟩ := h
      obtain ⟨rfl, hrest⟩ := ih (fun u hu => hts u (by simp [hu]))
        (fun u hu => hts' u (by simp [hu])) htail
      exact ⟨rfl, hrest⟩

section Row

variable {α : Type*}

def rowText (text : α → Text) : List α → Text
  | [] => rowEnd
  | [a] => 10 :: 9 :: text a ++ rowEnd
  | a :: b :: rest => 10 :: 9 :: text a ++ comma :: rowText text (b :: rest)

variable {text : α → Text} {denotes : α → List Token → Prop} {plain : α → Prop}

theorem lex_item (a : α) (r : Text) : lex (10 :: 9 :: text a ++ r) = lex (text a ++ r) := by
  rw [List.cons_append, List.cons_append, lex_blank (by decide), lex_blank (by decide)]

/-- A text of items is a row of literals, one for each item, exactly if every item is plain,
where plain items are those that are written as a literal in whatever row they stand. -/
theorem lex_rowText_iff {as : List α}
    (hsep : ∀ a ts, denotes a ts → ∀ t ∈ ts, isSeparator t = false)
    (hplain : ∀ a ∈ as, plain a → ∀ r, EndsLiteral r →
      ∃ ts, denotes a ts ∧ lex (text a ++ r) = (lex r).map (ts ++ ·))
    (hother : ∀ a ∈ as, ∀ ts s rest r, ¬ plain a → denotes a ts → isSeparator s = true →
      r.head? = some comma ∨ r = rowEnd → lex (text a ++ r) ≠ some (ts ++ s :: rest))
    (hne : as ≠ []) :
    (∃ tss, List.Forall₂ denotes as tss ∧ lex (rowText text as) = some (literalRow tss)) ↔
      ∀ a ∈ as, plain a := by
  induction as with
  | nil => exact absurd rfl hne
  | cons a as ih =>
    have hitem := hplain a (by simp)
    have hbad := hother a (by simp)
    cases as with
    | nil =>
      constructor
      · rintro ⟨_, _ | ⟨hd, _ | _⟩, hlex⟩
        rw [rowText, lex_item, literalRow] at hlex
        intro b hb
        obtain rfl := List.mem_singleton.mp hb
        by_contra hp
        exact hbad _ _ _ _ hp hd rfl (.inr rfl) hlex
      · intro h
        obtain ⟨ts, hd, hlex⟩ := hitem (h a (by simp)) rowEnd endsLiteral_rowEnd
        refine ⟨[ts], .cons hd .nil, ?_⟩
        rw [rowText, lex_item, hlex, lex_rowEnd]
        rfl
    | cons b rest =>
      have ih := ih (fun c hc => hplain c (List.mem_cons_of_mem a hc))
        (fun c hc => hother c (List.mem_cons_of_mem a hc)) (by simp)
      rw [List.forall_mem_cons, ← ih]
      constructor
      · rintro ⟨_, _ | ⟨hd, htail⟩, hlex⟩
        rename_i ts tss
        cases htail with
        | cons hd' htail =>
          rename_i ts' tss'
          rw [rowText, lex_item, literalRow] at hlex
          have hp : plain a := by
            by_contra hp
            exact hbad _ _ _ _ hp hd rfl (.inl rfl) hlex
          obtain ⟨ts'', hd'', hread⟩ := hitem hp _ (endsLiteral_comma _)
          rw [hread, lex_comma, Option.map_map, Option.map_eq_some_iff] at hlex
          obtain ⟨tokens, htokens, heq⟩ := hlex
          obtain ⟨-, -, hrest⟩ := append_separator_inj (hsep a _ hd'') (hsep a _ hd) rfl rfl heq
          exact ⟨hp, ts' :: tss', .cons hd' htail, by rw [htokens, hrest]⟩
      · rintro ⟨hp, tss, htail, hlex⟩
        obtain ⟨ts, hd, hread⟩ := hitem hp _ (endsLiteral_comma (rowText text (b :: rest)))
        refine ⟨ts :: tss, .cons hd htail, ?_⟩
        rw [rowText, lex_item, hread, lex_comma, hlex]
        cases htail
        rfl

end Row

end Webcrown.Sql
