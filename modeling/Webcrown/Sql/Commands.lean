import Webcrown.Sql.Columns
import Webcrown.Sql.Statements

/-!
# Commands on a table

Inserts, updates, deletes and queries of one table. A minus right behind an equals sign is a
token of its own, also where the lexer of single texts gives up on the two; all other tokens are
the same. The server is a parameter, of which the documented part is a hypothesis.
-/

namespace Webcrown.Sql

def equals : UInt8 := 61

section Tokens

/-- The token that a text begins with. An operator of several characters does not end in a minus
when it is made of an equals sign and that minus. -/
def nextSplit (c : UInt8) (s : Text) : Option (Option Token × Text) :=
  (nextToken c s).or
    (if c = equals ∧ s.head? = some minus ∧ s.tail.head?.any isOperator = false then
      some (some (.symbol c), s)
    else none)

def tokensFuel : ℕ → Text → Option (List Token)
  | _, [] => some []
  | 0, _ :: _ => none
  | fuel + 1, c :: s =>
    match nextSplit c s with
    | none => none
    | some (token, rest) => (tokensFuel fuel rest).map fun tokens => token.toList ++ tokens

def tokens (s : Text) : Option (List Token) := tokensFuel s.length s

theorem nextSplit_of_nextToken {c : UInt8} {s : Text} {next : Option Token × Text}
    (h : nextToken c s = some next) : nextSplit c s = some next := by
  rw [nextSplit, h, Option.some_or]

theorem length_nextSplit {c : UInt8} {s rest : Text} {token : Option Token}
    (h : nextSplit c s = some (token, rest)) : rest.length ≤ s.length := by
  rw [nextSplit, Option.or_eq_some_iff] at h
  rcases h with h | ⟨-, h⟩
  · exact length_nextToken h
  · split_ifs at h
    obtain ⟨-, rfl⟩ := Prod.mk.inj (Option.some.inj h)
    exact le_rfl

theorem tokensFuel_eq {fuel : ℕ} {s : Text} (h : s.length ≤ fuel) :
    tokensFuel fuel s = tokens s := by
  suffices hall : ∀ n fuel (s : Text), s.length ≤ n → n ≤ fuel →
      tokensFuel fuel s = tokensFuel n s from hall s.length fuel s le_rfl h
  intro n
  induction n with
  | zero =>
    intro fuel s hs _
    obtain rfl := List.eq_nil_of_length_eq_zero (Nat.le_zero.mp hs)
    simp [tokensFuel]
  | succ n ih =>
    intro fuel s hs hle
    obtain ⟨fuel, rfl⟩ : ∃ f, fuel = f + 1 := ⟨fuel - 1, by omega⟩
    cases s with
    | nil => simp [tokensFuel]
    | cons c s =>
      simp only [tokensFuel]
      cases htoken : nextSplit c s with
      | none => rfl
      | some next =>
        have hlen : next.2.length ≤ s.length := length_nextSplit htoken
        dsimp only
        rw [ih fuel next.2 (hlen.trans (Nat.succ_le_succ_iff.mp hs)) (Nat.succ_le_succ_iff.mp hle)]

theorem tokens_cons (c : UInt8) (s : Text) :
    tokens (c :: s) = (nextSplit c s).bind fun next =>
      (tokens next.2).map fun tokens => next.1.toList ++ tokens := by
  rw [tokens, List.length_cons, tokensFuel]
  cases htoken : nextSplit c s with
  | none => rfl
  | some next =>
    have hlen : next.2.length ≤ s.length := length_nextSplit htoken
    dsimp only [Option.bind]
    rw [tokensFuel_eq hlen]

@[simp] theorem tokens_nil : tokens [] = some [] := rfl

/-- What the lexer of single texts reads is read so here. -/
theorem tokens_of_lex {s : Text} {ts : List Token} (h : lex s = some ts) : tokens s = some ts := by
  induction hn : s.length using Nat.strong_induction_on generalizing s ts with
  | _ n ih =>
    cases s with
    | nil => exact h
    | cons c s =>
      rw [lex_cons] at h
      obtain ⟨next, hnext, hts⟩ := Option.bind_eq_some_iff.mp h
      obtain ⟨rest, hrest, rfl⟩ := Option.map_eq_some_iff.mp hts
      have hlen : next.2.length ≤ s.length := length_nextToken hnext
      rw [tokens_cons, nextSplit_of_nextToken hnext, Option.bind_some,
        ih next.2.length (by rw [← hn, List.length_cons]; omega) hrest rfl]
      rfl

section Steps

variable {c : UInt8} {s rest : Text}

theorem tokens_step {token : Option Token} (h : nextToken c s = some (token, rest)) :
    tokens (c :: s) = (tokens rest).map (token.toList ++ ·) := by
  rw [tokens_cons, nextSplit_of_nextToken h]
  rfl

theorem tokens_blanks {bs : Text} (h : ∀ b ∈ bs, isBlank b = true) (rest : Text) :
    tokens (bs ++ rest) = tokens rest := by
  induction bs with
  | nil => rfl
  | cons b bs ih =>
    have hblank : nextToken b (bs ++ rest) = some (none, bs ++ rest) := by
      rw [nextToken, if_pos (h b (by simp))]
    rw [List.cons_append, tokens_step hblank, ih fun d hd => h d (List.mem_cons_of_mem _ hd)]
    simp

theorem tokens_space (rest : Text) : tokens (32 :: rest) = tokens rest := by
  have hblank : ∀ b ∈ [(32 : UInt8)], isBlank b = true := by simp [isBlank]
  exact tokens_blanks hblank rest

theorem tokens_punctuation (h : c ∈ [comma, lparen, rparen, semicolon]) (rest : Text) :
    tokens (c :: rest) = (tokens rest).map (Token.symbol c :: ·) :=
  tokens_step (nextToken_punctuation h rest)

theorem nextToken_operator (hc : c = equals ∨ c = 42) (h : s.head?.any isOperator = false) :
    nextToken c s = some (some (.symbol c), s) := by
  have hother : isBlank c = false ∧ c ≠ minus ∧ c ≠ 47 ∧ c ≠ quote ∧ isDigit c = false ∧
      startsWord c = false ∧ ¬ (c = 34 ∨ c = 36 ∨ c = 46) ∧ c ≠ 58 := by
    rcases hc with rfl | rfl <;> decide
  obtain ⟨hblank, hminus, hslash, hquote, hdigit, hword, hother, hcolon⟩ := hother
  rw [nextToken, if_neg (by simp [hblank]), if_neg fun hs => hminus hs.1,
    if_neg fun hs => hslash hs.1, if_neg hquote, if_neg (by simp [hdigit]),
    if_neg (by simp [hword]), if_neg hother, if_neg (by simp [h]), if_neg fun hs => hcolon hs.1]

/-- An equals sign in front of anything that is no operator, or of a minus alone. -/
theorem tokens_equals (h : s.head?.any isOperator = false ∨
    s.head? = some minus ∧ s.tail.head?.any isOperator = false) :
    tokens (equals :: s) = (tokens s).map (Token.symbol equals :: ·) := by
  rcases h with h | h
  · exact tokens_step (nextToken_operator (.inl rfl) h)
  · have hnone : nextToken equals s = none := by
      rw [nextToken, if_neg (by decide), if_neg fun hs => absurd hs.1 (by decide),
        if_neg fun hs => absurd hs.1 (by decide), if_neg (by decide), if_neg (by decide),
        if_neg (by decide), if_neg (by decide), if_pos ⟨by decide, by rw [h.1]; decide⟩]
    rw [tokens_cons, nextSplit, hnone, Option.none_or, if_pos ⟨rfl, h⟩]
    rfl

theorem tokens_word {w : Text} (hw : IsWord w)
    (hrest : ∀ d, rest.head? = some d → inWord d = false ∧ d ≠ quote ∧ d ≠ 38) :
    tokens (w ++ rest) = (tokens rest).map (Token.word w :: ·) := by
  obtain ⟨c, w, rfl, hc, hin⟩ := hw
  obtain ⟨hblank, hdigit⟩ := not_isBlank_of_startsWord hc
  have hnot : ∀ d, startsWord d = false → ¬ c = d := by
    rintro d hd rfl
    rw [hc] at hd
    cases hd
  obtain ⟨htake, hdrop⟩ := span_append hin fun d hd => (hrest d hd).1
  have hstop : ¬ rest.head?.any (fun d => d == quote || d == 38) = true := by
    cases rest with
    | nil => simp
    | cons d rest => simp [hrest d rfl]
  have htoken : nextToken c (w ++ rest) = some (some (.word (c :: w)), rest) := by
    rw [nextToken, if_neg (by simp [hblank]), if_neg fun h => hnot minus (by decide) h.1,
      if_neg fun h => hnot 47 (by decide) h.1, if_neg (hnot quote (by decide)),
      if_neg (by simp [hdigit]), if_pos hc]
    simp only [htake, hdrop, if_neg hstop]
  exact tokens_step htoken

theorem tokens_word_space {w : Text} (hw : IsWord w) (rest : Text) :
    tokens (w ++ 32 :: rest) = (tokens rest).map (Token.word w :: ·) := by
  rw [tokens_word hw fun d hd => by obtain rfl := Option.some.inj hd; decide, tokens_space]

theorem tokens_number {n : Text} (hne : n ≠ []) (hn : ∀ d ∈ n, isDigit d = true)
    (hrest : ∀ d, rest.head? = some d → inWord d = false ∧ d ≠ 46) :
    tokens (n ++ rest) = (tokens rest).map (Token.number n :: ·) := by
  obtain ⟨c, n, rfl⟩ := List.exists_cons_of_ne_nil hne
  have hc := hn c (by simp)
  have hnot : ∀ d, isDigit d = false → ¬ c = d := by
    rintro d hd rfl
    rw [hc] at hd
    cases hd
  have hboundary : ∀ d, rest.head? = some d → isDigit d = false := by
    intro d hd
    have hword := (hrest d hd).1
    simp only [inWord, Bool.or_eq_false_iff] at hword
    exact hword.1.2
  have htail : ∀ d ∈ n, isDigit d = true := fun d hd => hn d (List.mem_cons_of_mem c hd)
  obtain ⟨htake, hdrop⟩ := span_append htail hboundary
  have hstop : ¬ rest.head?.any (fun d => inWord d || d == 46) = true := by
    cases rest with
    | nil => simp
    | cons d rest => simp [hrest d rfl]
  have htoken : nextToken c (n ++ rest) = some (some (.number (c :: n)), rest) := by
    rw [nextToken, if_neg (by simp [not_isBlank_of_isDigit hc]),
      if_neg fun h => hnot minus (by decide) h.1, if_neg fun h => hnot 47 (by decide) h.1,
      if_neg (hnot quote (by decide)), if_pos hc]
    simp only [htake, hdrop, if_neg hstop]
  exact tokens_step htoken

theorem tokens_string {v : Text} (hv : quote ∉ v) (hrest : rest.head? ≠ some quote)
    (hend : continuation rest = some none) :
    tokens (quote :: (v ++ quote :: rest)) = (tokens rest).map (Token.string v :: ·) := by
  have htoken : nextToken quote (v ++ quote :: rest) = some (some (.string v), rest) := by
    rw [nextToken, if_neg (by decide), if_neg (fun h => absurd h.1 (by decide)),
      if_neg (fun h => absurd h.1 (by decide)), if_pos rfl,
      quoted_of_notMem hv (by simp) hrest hend]
    rfl
  exact tokens_step htoken

theorem tokens_minus {n : Text} (hne : n ≠ []) (hn : ∀ d ∈ n, isDigit d = true) (rest : Text) :
    tokens (minus :: (n ++ rest)) = (tokens (n ++ rest)).map (Token.symbol minus :: ·) := by
  obtain ⟨d, n, rfl⟩ := List.exists_cons_of_ne_nil hne
  refine tokens_step (nextToken_minus ?_)
  simp [(not_isOperator_of_isDigit (hn d (by simp))).1]

end Steps

end Tokens

section Grammar

/-- A command that names one table. The condition is that of the search, if there is one. -/
inductive Command
  | insert (i : Insert)
  | update (table : Text) (assignments : List (Text × List Token)) (condition : List Token)
  | delete (table : Text) (condition : List Token)
  | select (table : Text) (condition : List Token)
  deriving DecidableEq

/-- `update`, `set`, `delete`, `from`, `select` and `where`. -/
def updateWord : Text := [117, 112, 100, 97, 116, 101]
def setWord : Text := [115, 101, 116]
def deleteWord : Text := [100, 101, 108, 101, 116, 101]
def fromWord : Text := [102, 114, 111, 109]
def selectWord : Text := [115, 101, 108, 101, 99, 116]
def whereWord : Text := [119, 104, 101, 114, 101]

/-- The condition behind `where`, up to the end of the command. -/
def searchCondition : List Token → Option (List Token)
  | [] => some []
  | .word w :: ts =>
    if foldName w = whereWord ∧ ts ≠ [] ∧ Token.symbol semicolon ∉ ts then some ts else none
  | _ => none

variable (reserved : Text → Bool)

/-- Assignments of literals with commas between them, and the tokens behind them. -/
def assignments : ℕ → List Token → Option (List (Text × List Token) × List Token)
  | fuel + 1, .word w :: .symbol e :: rest =>
    if reserved (foldName w) = false ∧ e = equals then
      match literal rest with
      | some (l, .symbol c :: rest') =>
        if c = comma then
          (assignments fuel rest').map fun next => ((foldName w, l) :: next.1, next.2)
        else some ([(foldName w, l)], .symbol c :: rest')
      | some (l, rest') => some ([(foldName w, l)], rest')
      | none => none
    else none
  | _, _ => none

/-- A word that cannot stand for anything else, then the name of a table. -/
def tableBehind (keyword : Text) : List Token → Option (Text × List Token)
  | .word w :: .word table :: rest =>
    if foldName w = keyword ∧ reserved (foldName table) = false then
      some (foldName table, rest)
    else none
  | _ => none

def parseCommand : List Token → Option Command
  | .word w :: rest =>
    if foldName w = updateWord then
      (tableBehind reserved updateWord (.word w :: rest)).bind fun next =>
        match next.2 with
        | .word set :: rest =>
          if foldName set = setWord then
            (assignments reserved rest.length rest).bind fun sets =>
              (searchCondition sets.2).map (.update next.1 sets.1 ·)
          else none
        | _ => none
    else if foldName w = deleteWord then
      (tableBehind reserved fromWord rest).bind fun next =>
        (searchCondition next.2).map (.delete next.1 ·)
    else if foldName w = selectWord then
      match rest with
      | .symbol c :: rest =>
        if c = 42 then
          (tableBehind reserved fromWord rest).bind fun next =>
            (searchCondition next.2).map (.select next.1 ·)
        else none
      | _ => none
    else (parseInsert reserved (.word w :: rest)).map .insert
  | _ => none

def readCommand (s : Text) : Option Command := (tokens s).bind (parseCommand reserved)

end Grammar

section Reading

variable {reserved : Text → Bool}

def assignmentRow : List (Text × List Token) → List Token
  | [] => []
  | [a] => .word a.1 :: .symbol equals :: a.2
  | a :: b :: rest =>
    .word a.1 :: .symbol equals :: (a.2 ++ .symbol comma :: assignmentRow (b :: rest))

theorem length_le_assignmentRow (sets : List (Text × List Token)) :
    sets.length ≤ (assignmentRow sets).length := by
  induction sets with
  | nil => simp
  | cons a sets ih =>
    cases sets with
    | nil => simp [assignmentRow]
    | cons b sets =>
      simp only [assignmentRow, List.length_cons, List.length_append] at ih ⊢
      omega

theorem assignments_assignmentRow {sets : List (Text × List Token)} (hne : sets ≠ [])
    (h : ∀ a ∈ sets, reserved (foldName a.1) = false ∧ OneLiteral a.2) {rest : List Token}
    (hrest : ∀ c, rest.head? ≠ some (.symbol c)) {fuel : ℕ} (hfuel : sets.length ≤ fuel) :
    assignments reserved fuel (assignmentRow sets ++ rest) =
      some (sets.map fun a => (foldName a.1, a.2), rest) := by
  induction sets generalizing fuel with
  | nil => exact absurd rfl hne
  | cons a sets ih =>
    obtain ⟨fuel, rfl⟩ : ∃ f, fuel = f + 1 := ⟨fuel - 1, by simp at hfuel; omega⟩
    obtain ⟨hname, hliteral⟩ := h a (by simp)
    cases sets with
    | nil =>
      have hread := literal_append hliteral rest
      simp only [assignmentRow, List.cons_append, assignments, hname, hread, and_self, if_true]
      split
      · rename_i heq
        obtain ⟨rfl, rfl⟩ := Prod.mk.inj (Option.some.inj heq)
        exact absurd rfl (hrest _)
      · rename_i heq
        obtain ⟨rfl, rfl⟩ := Prod.mk.inj (Option.some.inj heq)
        rfl
      · rename_i heq
        cases heq
    | cons b sets =>
      have hread := literal_append hliteral (.symbol comma :: (assignmentRow (b :: sets) ++ rest))
      have ih := ih (by simp) (fun c hc => h c (List.mem_cons_of_mem _ hc))
        (Nat.succ_le_succ_iff.mp hfuel)
      simp only [assignmentRow, List.cons_append, List.append_assoc, assignments, hname, hread,
        and_self, if_true, ih, Option.map_some, List.map_cons]

theorem searchCondition_where {w : Text} (hw : foldName w = whereWord) {ts : List Token}
    (hne : ts ≠ []) (hsemicolon : Token.symbol semicolon ∉ ts) :
    searchCondition (.word w :: ts) = some ts := by
  rw [searchCondition, if_pos ⟨hw, hne, hsemicolon⟩]

variable {keyword table : Text} {condition behind : List Token}

theorem parseCommand_update (hupdate : foldName keyword = updateWord)
    (htable : reserved (foldName table) = false) {set : Text} (hset : foldName set = setWord)
    {sets : List (Text × List Token)} (hne : sets ≠ [])
    (h : ∀ a ∈ sets, reserved (foldName a.1) = false ∧ OneLiteral a.2)
    (hbehind : ∀ c, behind.head? ≠ some (.symbol c))
    (hcondition : searchCondition behind = some condition) :
    parseCommand reserved (.word keyword :: .word table :: .word set ::
        (assignmentRow sets ++ behind)) =
      some (.update (foldName table) (sets.map fun a => (foldName a.1, a.2)) condition) := by
  have hsets : assignments reserved (assignmentRow sets ++ behind).length
      (assignmentRow sets ++ behind) = some (sets.map fun a => (foldName a.1, a.2), behind) :=
    assignments_assignmentRow hne h hbehind ((length_le_assignmentRow sets).trans (by simp))
  simp only [parseCommand, hupdate, if_true, tableBehind, htable, and_self, Option.bind_some,
    hset, hsets, hcondition, Option.map_some]

theorem parseCommand_delete (hdelete : foldName keyword = deleteWord) {word : Text}
    (hfrom : foldName word = fromWord) (htable : reserved (foldName table) = false)
    (hcondition : searchCondition behind = some condition) :
    parseCommand reserved (.word keyword :: .word word :: .word table :: behind) =
      some (.delete (foldName table) condition) := by
  have hne : deleteWord ≠ updateWord := by decide
  simp only [parseCommand, hdelete, hne, if_false, if_true, tableBehind, hfrom, htable, and_self,
    Option.bind_some, hcondition, Option.map_some]

theorem parseCommand_select (hselect : foldName keyword = selectWord) {word : Text}
    (hfrom : foldName word = fromWord) (htable : reserved (foldName table) = false)
    (hcondition : searchCondition behind = some condition) :
    parseCommand reserved (.word keyword :: .symbol 42 :: .word word :: .word table :: behind) =
      some (.select (foldName table) condition) := by
  have hne : selectWord ≠ updateWord ∧ selectWord ≠ deleteWord := by decide
  simp only [parseCommand, hselect, hne.1, hne.2, if_false, if_true, tableBehind, hfrom, htable,
    and_self, Option.bind_some, hcondition, Option.map_some]

theorem parseCommand_insert (hinsert : foldName keyword = insertWord) {ts : List Token}
    {i : Insert} (h : parseInsert reserved (.word keyword :: ts) = some i) :
    parseCommand reserved (.word keyword :: ts) = some (.insert i) := by
  have hne : insertWord ≠ updateWord ∧ insertWord ≠ deleteWord ∧ insertWord ≠ selectWord := by
    decide
  simp only [parseCommand, hinsert, hne.1, hne.2.1, hne.2.2, if_false, h, Option.map_some]

theorem readCommand_of_readInsert {s : Text} {i : Insert} (h : readInsert reserved s = some i) :
    readCommand reserved s = some (.insert i) := by
  obtain ⟨ts, hlex, hparse⟩ := Option.bind_eq_some_iff.mp h
  rw [readCommand, tokens_of_lex hlex, Option.bind_some]
  have hparse' := hparse
  unfold parseInsert at hparse'
  split at hparse'
  · split_ifs at hparse' with hwords
    exact parseCommand_insert hwords.1 hparse
  · cases hparse'

end Reading

section Assignments

variable {ι κ α : Type*} {key : α → ι} {f : α → Option κ} {xs : List α}

theorem sublist_given : ((xs.filterMap fun y => (f y).map fun l => (key y, l)).map Prod.fst).Sublist
    (xs.map key) := by
  induction xs with
  | nil => exact .slnil
  | cons y xs ih =>
    rw [List.filterMap_cons, List.map_cons]
    cases f y with
    | none => exact ih.cons _
    | some l => exact ih.cons_cons _

variable [DecidableEq ι]

theorem lookup_given_of_notMem {c : ι} (hc : c ∉ xs.map key) :
    (xs.filterMap fun y => (f y).map fun l => (key y, l)).lookup c = none := by
  rw [List.lookup_eq_none_iff]
  intro a ha
  exact bne_iff_ne.mpr fun hac => hc (hac ▸ sublist_given.subset (List.mem_map_of_mem ha))

theorem lookup_given (hnodup : (xs.map key).Nodup) {x : α} (hx : x ∈ xs) :
    (xs.filterMap fun y => (f y).map fun l => (key y, l)).lookup (key x) = f x := by
  induction xs with
  | nil => cases hx
  | cons y xs ih =>
    rw [List.map_cons, List.nodup_cons] at hnodup
    rw [List.filterMap_cons]
    rcases List.mem_cons.mp hx with rfl | hx
    · cases hf : f x with
      | none => exact lookup_given_of_notMem hnodup.1
      | some l =>
        dsimp only [Option.map_some]
        rw [List.lookup_cons, beq_self_eq_true]
    · have hne : key x ≠ key y := fun h => hnodup.1 (h ▸ List.mem_map_of_mem hx)
      cases f y with
      | none => exact ih hnodup.2 hx
      | some l =>
        dsimp only [Option.map_some]
        rw [List.lookup_cons, beq_eq_false_iff_ne.mpr hne]
        exact ih hnodup.2 hx

/-- What a row holds in a column after assignments of values that the columns convert. -/
theorem assign_converted {κ' : Type*} (convert : ι → κ → κ') (sets : List (ι × κ)) (row : ι → κ')
    (c : ι) : assign (sets.map fun a => (a.1, convert a.1 a.2)) row c =
      ((sets.lookup c).map (convert c)).getD (row c) := by
  have hlookup : (sets.map fun a => (a.1, convert a.1 a.2)).lookup c =
      (sets.lookup c).map (convert c) := by
    induction sets with
    | nil => rfl
    | cons a sets ih =>
      rw [List.map_cons, List.lookup_cons, List.lookup_cons]
      by_cases hc : c = a.1
      · subst hc
        simp
      · rw [beq_eq_false_iff_ne.mpr hc]
        exact ih
  rw [assign, hlookup]

end Assignments

section Servers

/-- The cells of a row, by the names of the columns. -/
abbrev Row (κ : Type*) := Text → κ

/-- A server of databases. `execute` is a text in a transaction of its own, without an answer
where the server refuses it. `rows` are those of a table, `cell` is what a column of a table holds
for a literal. The conditions that are `rowwise` are about one row at a time and end the command
(no limit is behind them), and `holds` is what such a condition says of a row. -/
structure Server (σ κ : Type*) where
  execute : σ → Text → σ × Option (Multiset (Row κ))
  rows : σ → Text → Multiset (Row κ)
  cell : Text → Text → List Token → κ
  rowwise : Text → List Token → Prop
  holds : σ → Text → List Token → Row κ → Bool

variable {σ κ : Type*}

namespace Server

variable (server : Server σ κ)

/-- The rows that a command is about: without a condition, all of them. -/
def selects (s : σ) (table : Text) (condition : List Token) (row : Row κ) : Bool :=
  condition.isEmpty || server.holds s table condition row

/-- A row of which assignments replace the cells. -/
def replaced (table : Text) (sets : List (Text × List Token)) (row : Row κ) : Row κ :=
  assign (sets.map fun a => (a.1, server.cell table a.1 a.2)) row

def run (s : σ) : List Text → σ × List (Option (Multiset (Row κ)))
  | [] => (s, [])
  | text :: texts =>
    let next := server.execute s text
    let last := run next.1 texts
    (last.1, next.2 :: last.2)

end Server

def Command.table : Command → Text
  | .insert i => i.table
  | .update table _ _ | .delete table _ | .select table _ => table

/-- The condition of a command is about one row at a time. -/
def Command.Rowwise (server : Server σ κ) : Command → Prop
  | .insert _ => True
  | .update table _ condition | .delete table condition | .select table condition =>
    server.rowwise table condition

/-- What a command does to the rows of its table. An insert gives one value to each column that it
names; the other columns of the new row are the server's. -/
def Command.Does (server : Server σ κ) (s s' : σ) (answer : Multiset (Row κ)) : Command → Prop
  | .insert i => answer = 0 ∧ i.columns.length = i.values.length ∧
    ∃ row, server.rows s' i.table = row ::ₘ server.rows s i.table ∧
      ∀ c l, (i.columns.zip i.values).lookup c = some l → row c = server.cell i.table c l
  | .update table sets condition => answer = 0 ∧
    server.rows s' table = (server.rows s table).map fun row =>
      if server.selects s table condition row then server.replaced table sets row else row
  | .delete table condition => answer = 0 ∧
    server.rows s' table =
      (server.rows s table).filter fun row => ¬ server.selects s table condition row
  | .select table condition => server.rows s' table = server.rows s table ∧
    answer = (server.rows s table).filter fun row => server.selects s table condition row

/-- What the server's manual says of a table without triggers, rules, policies and generated
columns. A text that is refused leaves the rows as they are; one that is accepted does what the
command does that it is read as, if its condition is about one row at a time. -/
structure Server.Documented (server : Server σ κ) (reserved : Text → Bool) (table : Text) :
    Prop where
  refused : ∀ {s s' : σ} {text : Text}, server.execute s text = (s', none) →
    server.rows s' table = server.rows s table
  accepted : ∀ {s s' : σ} {text : Text} {answer : Multiset (Row κ)} {c : Command},
    server.execute s text = (s', some answer) → readCommand reserved text = some c →
      c.table = table → c.Rowwise server → c.Does server s s' answer

end Servers

end Webcrown.Sql
