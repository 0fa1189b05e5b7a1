import Webcrown.Sql.Rows

/-!
# Insert statements

An insert of one row names a table and columns and gives literals. It is read from its tokens;
the words that cannot be names are a parameter.
-/

namespace Webcrown.Sql

/-- A keyword or a name without quotes is read without regard to the case of its ASCII letters. -/
def foldName (w : Text) : Text := w.map fun c => if 65 ≤ c && c ≤ 90 then c + 32 else c

structure Insert where
  table : Text
  columns : List Text
  values : List (List Token)
  deriving DecidableEq

/-- The literal that tokens begin with, and the tokens behind it. -/
def literal : List Token → Option (List Token × List Token)
  | .string v :: rest => some ([.string v], rest)
  | .number n :: rest => some ([.number n], rest)
  | .symbol c :: .number n :: rest =>
    if c = minus ∨ c = plus then some ([.symbol c, .number n], rest) else none
  | .word w :: rest =>
    if w = [116, 114, 117, 101] ∨ w = [102, 97, 108, 115, 101] then some ([.word w], rest)
    else none
  | _ => none

/-- Literals with commas between them, up to the end of the statement. -/
def literals : ℕ → List Token → Option (List (List Token))
  | 0, _ => none
  | fuel + 1, tokens =>
    match literal tokens with
    | some (l, .symbol c :: rest) =>
      if c = comma then (literals fuel rest).map (l :: ·)
      else if c = rparen ∧ rest = [.symbol semicolon] then some [l]
      else none
    | _ => none

section Names

variable (reserved : Text → Bool)

/-- Names with commas between them up to a closing parenthesis, and the tokens behind it. -/
def names : List Token → Option (List Text × List Token)
  | .word w :: .symbol c :: rest =>
    if reserved (foldName w) then none
    else if c = comma then (names rest).map fun next => (w :: next.1, next.2)
    else if c = rparen then some ([w], rest)
    else none
  | _ => none

/-- `insert`, `into` and `values`. -/
def insertWord : Text := [105, 110, 115, 101, 114, 116]
def intoWord : Text := [105, 110, 116, 111]
def valuesWord : Text := [118, 97, 108, 117, 101, 115]

def parseInsert : List Token → Option Insert
  | .word insert :: .word into :: .word table :: .symbol c :: rest =>
    if foldName insert = insertWord ∧ foldName into = intoWord ∧
        reserved (foldName table) = false ∧ c = lparen then
      match names reserved rest with
      | some (columns, .word values :: .symbol d :: rest) =>
        if foldName values = valuesWord ∧ d = lparen then
          (literals rest.length rest).map fun tss =>
            ⟨foldName table, columns.map foldName, tss⟩
        else none
      | _ => none
    else none
  | _ => none

def readInsert (s : Text) : Option Insert := (lex s).bind (parseInsert reserved)

end Names

section Reading

theorem literal_append {l : List Token} (h : OneLiteral l) (rest : List Token) :
    literal (l ++ rest) = some (l, rest) := by
  rcases h with ⟨v, rfl⟩ | ⟨n, rfl | rfl | rfl⟩ | rfl | rfl <;> simp [literal]

theorem literal_spec {tokens l rest : List Token} (h : literal tokens = some (l, rest)) :
    OneLiteral l ∧ tokens = l ++ rest := by
  unfold literal at h
  split at h
  · cases h
    exact ⟨.inl ⟨_, rfl⟩, rfl⟩
  · cases h
    exact ⟨.inr (.inl ⟨_, .inl rfl⟩), rfl⟩
  · split_ifs at h with hsign
    cases h
    rcases hsign with rfl | rfl
    · exact ⟨.inr (.inl ⟨_, .inr (.inl rfl)⟩), rfl⟩
    · exact ⟨.inr (.inl ⟨_, .inr (.inr rfl)⟩), rfl⟩
  · split_ifs at h with hword
    cases h
    rcases hword with rfl | rfl
    · exact ⟨.inr (.inr (.inl rfl)), rfl⟩
    · exact ⟨.inr (.inr (.inr rfl)), rfl⟩
  · cases h

theorem literals_spec {fuel : ℕ} {tokens : List Token} {tss : List (List Token)}
    (h : literals fuel tokens = some tss) : tss ≠ [] ∧ tokens = literalRow tss := by
  induction fuel generalizing tokens tss with
  | zero => cases h
  | succ fuel ih =>
    unfold literals at h
    split at h
    · rename_i l c rest hl
      obtain ⟨-, rfl⟩ := literal_spec hl
      split_ifs at h with hc hend
      · obtain ⟨tss, htss, rfl⟩ := Option.map_eq_some_iff.mp h
        obtain ⟨hne, rfl⟩ := ih htss
        obtain ⟨ts, tss, rfl⟩ := List.exists_cons_of_ne_nil hne
        rw [hc, literalRow]
        exact ⟨by simp, rfl⟩
      · cases h
        rw [hend.1, hend.2]
        exact ⟨by simp, rfl⟩
    · cases h

theorem literals_literalRow {tss : List (List Token)} (hne : tss ≠ [])
    (h : ∀ ts ∈ tss, OneLiteral ts) {fuel : ℕ} (hfuel : tss.length ≤ fuel) :
    literals fuel (literalRow tss) = some tss := by
  induction tss generalizing fuel with
  | nil => exact absurd rfl hne
  | cons ts tss ih =>
    obtain ⟨fuel, rfl⟩ : ∃ f, fuel = f + 1 := ⟨fuel - 1, by simp at hfuel; omega⟩
    have hts := h ts (by simp)
    cases tss with
    | nil =>
      rw [literals, literalRow, literal_append hts]
      simp [comma, rparen]
    | cons ts' tss =>
      have ih := ih (by simp) (fun u hu => h u (List.mem_cons_of_mem _ hu))
        (Nat.succ_le_succ_iff.mp hfuel)
      rw [literals, literalRow, literal_append hts]
      simp [ih]

theorem length_le_literalRow (tss : List (List Token)) : tss.length ≤ (literalRow tss).length := by
  induction tss with
  | nil => simp
  | cons ts tss ih =>
    cases tss with
    | nil => simp [literalRow]
    | cons ts' tss =>
      simp only [literalRow, List.length_append, List.length_cons] at ih ⊢
      omega

def nameRow : List Text → List Token
  | [] => [.symbol rparen]
  | [w] => [.word w, .symbol rparen]
  | w :: w' :: rest => .word w :: .symbol comma :: nameRow (w' :: rest)

variable {reserved : Text → Bool}

theorem names_nameRow {ws : List Text} (hne : ws ≠ [])
    (h : ∀ w ∈ ws, reserved (foldName w) = false) (rest : List Token) :
    names reserved (nameRow ws ++ rest) = some (ws, rest) := by
  induction ws with
  | nil => exact absurd rfl hne
  | cons w ws ih =>
    have hw := h w (by simp)
    cases ws with
    | nil => simp [nameRow, names, hw, comma, rparen]
    | cons w' ws =>
      have ih := ih (by simp) fun u hu => h u (List.mem_cons_of_mem _ hu)
      rw [nameRow, List.cons_append, List.cons_append, names, hw, ih]
      simp

theorem nameRow_cons (w : Text) (ws : List Text) : nameRow (w :: ws) =
    .word w :: (ws.flatMap (fun u => [.symbol comma, .word u]) ++ [.symbol rparen]) := by
  induction ws generalizing w with
  | nil => rfl
  | cons w' ws ih => rw [nameRow, ih, List.flatMap_cons]; rfl

theorem parseInsert_append {insert into table values : Text} {columns : List Text}
    (hinsert : foldName insert = insertWord) (hinto : foldName into = intoWord)
    (hvalues : foldName values = valuesWord) (htable : reserved (foldName table) = false)
    (hne : columns ≠ []) (hcolumns : ∀ w ∈ columns, reserved (foldName w) = false)
    (rest : List Token) :
    parseInsert reserved (.word insert :: .word into :: .word table :: .symbol lparen ::
        (nameRow columns ++ .word values :: .symbol lparen :: rest)) =
      (literals rest.length rest).map fun tss =>
        ⟨foldName table, columns.map foldName, tss⟩ := by
  rw [parseInsert, if_pos ⟨hinsert, hinto, htable, rfl⟩, names_nameRow hne hcolumns]
  simp only [hvalues, and_self, if_true]

end Reading

section Texts

def IsWord (w : Text) : Prop :=
  ∃ c s, w = c :: s ∧ startsWord c = true ∧ ∀ d ∈ s, inWord d = true

theorem isWord_iff {w : Text} :
    IsWord w ↔ (w.head?.any startsWord && w.tail.all inWord) = true := by
  cases w with
  | nil => simp [IsWord]
  | cons c s => simp [IsWord]

instance : DecidablePred IsWord := fun _ => decidable_of_iff _ isWord_iff.symm

theorem lex_isWord {w rest : Text} (hw : IsWord w)
    (hrest : ∀ d, rest.head? = some d → inWord d = false ∧ d ≠ quote ∧ d ≠ 38) :
    lex (w ++ rest) = (lex rest).map (Token.word w :: ·) := by
  obtain ⟨c, s, rfl, hc, hs⟩ := hw
  exact lex_word hc hs hrest

theorem lex_word_space {w : Text} (hw : IsWord w) (rest : Text) :
    lex (w ++ 32 :: rest) = (lex rest).map (Token.word w :: ·) := by
  rw [lex_isWord hw, lex_blank (by decide)]
  rintro d hd
  obtain rfl := Option.some.inj hd
  decide

theorem lex_blanks {bs : Text} (h : ∀ b ∈ bs, isBlank b = true) (rest : Text) :
    lex (bs ++ rest) = lex rest := by
  induction bs with
  | nil => rfl
  | cons b bs ih =>
    rw [List.cons_append, lex_blank (h b (by simp)), ih fun c hc => h c (List.mem_cons_of_mem _ hc)]

theorem lex_punctuation {c : UInt8} (h : c ∈ [comma, lparen, rparen, semicolon]) (rest : Text) :
    lex (c :: rest) = (lex rest).map (Token.symbol c :: ·) :=
  lex_symbol (nextToken_punctuation h rest)

/-- More names, each behind a comma and blanks, and a closing parenthesis. -/
def moreNames (bs : Text) (ws : List Text) (rest : Text) : Text :=
  ws.flatMap (fun w => comma :: (bs ++ w)) ++ 10 :: rparen :: rest

theorem head?_moreNames {bs : Text} {ws : List Text} {rest : Text} :
    ∀ d, (moreNames bs ws rest).head? = some d → inWord d = false ∧ d ≠ quote ∧ d ≠ 38 := by
  intro d hd
  cases ws <;> (obtain rfl := Option.some.inj hd; decide)

theorem lex_moreNames {bs : Text} (hbs : ∀ b ∈ bs, isBlank b = true) {ws : List Text}
    (hws : ∀ w ∈ ws, IsWord w) (rest : Text) :
    lex (moreNames bs ws rest) = (lex rest).map
      (ws.flatMap (fun w => [.symbol comma, .word w]) ++ .symbol rparen :: ·) := by
  induction ws with
  | nil =>
    rw [moreNames, List.flatMap_nil, List.nil_append, lex_blank (by decide),
      lex_punctuation (by simp)]
    rfl
  | cons w ws ih =>
    have htext : moreNames bs (w :: ws) rest = comma :: (bs ++ (w ++ moreNames bs ws rest)) := by
      simp [moreNames]
    rw [htext, lex_punctuation (by simp), lex_blanks hbs, lex_isWord (hws w (by simp))
      head?_moreNames, ih fun u hu => hws u (List.mem_cons_of_mem _ hu), Option.map_map,
      Option.map_map]
    rfl

theorem lex_names {bs : Text} (hbs : ∀ b ∈ bs, isBlank b = true) {w : Text} {ws : List Text}
    (hws : ∀ u ∈ w :: ws, IsWord u) (rest : Text) :
    lex (w ++ moreNames bs ws rest) = (lex rest).map (nameRow (w :: ws) ++ ·) := by
  rw [lex_isWord (hws w (by simp)) head?_moreNames,
    lex_moreNames hbs (fun u hu => hws u (List.mem_cons_of_mem _ hu)), Option.map_map,
    nameRow_cons]
  simp [Function.comp_def]

end Texts

section Rows

variable {α ι κ : Type*} [BEq ι] [LawfulBEq ι] {key : α → ι} {R : α → κ → Prop} {xs : List α}
  {ys : List κ}

/-- The cell of a column is the one that was written for it. -/
theorem lookup_zip_of_mem (h : List.Forall₂ R xs ys) (hnodup : (xs.map key).Nodup) {x : α}
    (hx : x ∈ xs) : ∃ y, R x y ∧ ((xs.map key).zip ys).lookup (key x) = some y := by
  induction h with
  | nil => cases hx
  | @cons x' y xs ys hxy _ ih =>
    rw [List.map_cons, List.nodup_cons] at hnodup
    rw [List.map_cons, List.zip_cons_cons]
    rcases List.mem_cons.mp hx with rfl | hx
    · exact ⟨y, hxy, by simp⟩
    · have hne : key x ≠ key x' := fun heq => hnodup.1 (heq ▸ List.mem_map_of_mem hx)
      rw [List.lookup_cons, beq_eq_false_iff_ne.mpr hne]
      exact ih hnodup.2 hx

theorem exists_of_forall₂ (h : List.Forall₂ R xs ys) {y : κ} (hy : y ∈ ys) : ∃ x ∈ xs, R x y := by
  induction h with
  | nil => cases hy
  | cons hxy _ ih =>
    rcases List.mem_cons.mp hy with rfl | hy
    · exact ⟨_, by simp, hxy⟩
    · obtain ⟨x, hx, hxy⟩ := ih hy
      exact ⟨x, List.mem_cons_of_mem _ hx, hxy⟩

end Rows

end Webcrown.Sql
