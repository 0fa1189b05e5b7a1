import Mathlib

/-!
# JSON texts

Values are read from bytes by the grammar of RFC 8259. An escape in a string stands for
the bytes of its character in UTF-8, a number keeps its text, and the members of an object
stand in the order in which they are written.
-/

namespace Webcrown.Json

abbrev Text := List UInt8

inductive Value
  | null
  | bool (b : Bool)
  | number (text : Text)
  | string (value : Text)
  | array (elements : List Value)
  | object (members : List (Text × Value))

def quote : UInt8 := 34
def backslash : UInt8 := 92
def comma : UInt8 := 44
def colon : UInt8 := 58

def isBlank (c : UInt8) : Bool := c == 32 || c == 9 || c == 10 || c == 13

def skip (t : Text) : Text := t.dropWhile isBlank

def isDigit (c : UInt8) : Bool := 48 ≤ c && c ≤ 57

def hexDigit (c : UInt8) : Option ℕ :=
  if 48 ≤ c && c ≤ 57 then some (c.toNat - 48)
  else if 65 ≤ c && c ≤ 70 then some (c.toNat - 55)
  else if 97 ≤ c && c ≤ 102 then some (c.toNat - 87)
  else none

def codeUnit : Text → Option (ℕ × Text)
  | a :: b :: c :: d :: t =>
    match hexDigit a, hexDigit b, hexDigit c, hexDigit d with
    | some a, some b, some c, some d => some (((a * 16 + b) * 16 + c) * 16 + d, t)
    | _, _, _, _ => none
  | _ => none

def utf8 (n : ℕ) : Text :=
  if n < 0x80 then [n.toUInt8]
  else if n < 0x800 then [(0xC0 + n / 64).toUInt8, (0x80 + n % 64).toUInt8]
  else if n < 0x10000 then
    [(0xE0 + n / 4096).toUInt8, (0x80 + n / 64 % 64).toUInt8, (0x80 + n % 64).toUInt8]
  else
    [(0xF0 + n / 262144).toUInt8, (0x80 + n / 4096 % 64).toUInt8, (0x80 + n / 64 % 64).toUInt8,
      (0x80 + n % 64).toUInt8]

def lowSurrogate : Text → Option (ℕ × Text)
  | 92 :: 117 :: t =>
    match codeUnit t with
    | some (v, rest) => if 0xDC00 ≤ v ∧ v < 0xE000 then some (v, rest) else none
    | none => none
  | _ => none

def unicodeEscape (t : Text) : Option (Text × Text) :=
  match codeUnit t with
  | none => none
  | some (u, rest) =>
    if 0xD800 ≤ u ∧ u < 0xDC00 then
      (lowSurrogate rest).map fun v =>
        (utf8 (0x10000 + (u - 0xD800) * 1024 + (v.1 - 0xDC00)), v.2)
    else if 0xDC00 ≤ u ∧ u < 0xE000 then none
    else some (utf8 u, rest)

def shortEscapes : List (UInt8 × UInt8) :=
  [(34, 34), (92, 92), (47, 47), (98, 8), (102, 12), (110, 10), (114, 13), (116, 9)]

/-- What a backslash introduces, and the text behind it. -/
def escape : Text → Option (Text × Text)
  | [] => none
  | c :: t =>
    if c = 117 then unicodeEscape t else (shortEscapes.lookup c).map fun b => ([b], t)

/-- The value of a string and the text behind it, from behind its opening quote on. -/
def quoted : ℕ → Text → Option (Text × Text)
  | 0, _ => none
  | _ + 1, [] => none
  | fuel + 1, c :: t =>
    if c = quote then some ([], t)
    else if c = backslash then
      (escape t).bind fun e => (quoted fuel e.2).map fun v => (e.1 ++ v.1, v.2)
    else if c < 32 then none
    else (quoted fuel t).map fun v => (c :: v.1, v.2)

def string (t : Text) : Option (Text × Text) := quoted (t.length + 1) t

def digits (t : Text) : Option Text :=
  if t.head?.any isDigit then some (t.dropWhile isDigit) else none

def numberEnd (t : Text) : Option Text :=
  let unsigned := if t.head? = some 45 then t.tail else t
  let integer := if unsigned.head? = some 48 then some unsigned.tail else digits unsigned
  integer.bind fun t =>
    let fraction := if t.head? = some 46 then digits t.tail else some t
    fraction.bind fun t =>
      if t.head? = some 101 ∨ t.head? = some 69 then
        digits (if t.tail.head? = some 43 ∨ t.tail.head? = some 45 then t.tail.tail else t.tail)
      else some t

def number (t : Text) : Option (Value × Text) :=
  (numberEnd t).map fun rest => (.number (t.take (t.length - rest.length)), rest)

def scalar (t : Text) : Option (Value × Text) :=
  if [110, 117, 108, 108] <+: t then some (.null, t.drop 4)
  else if [116, 114, 117, 101] <+: t then some (.bool true, t.drop 4)
  else if [102, 97, 108, 115, 101] <+: t then some (.bool false, t.drop 5)
  else number t

/-- Items with commas between them, up to the closing byte. -/
def items {α : Type} (item : Text → Option (α × Text)) (close : UInt8) :
    ℕ → Text → Option (List α × Text)
  | 0, _ => none
  | fuel + 1, t =>
    (item t).bind fun a =>
      match skip a.2 with
      | [] => none
      | c :: rest =>
        if c = comma then (items item close fuel rest).map fun as => (a.1 :: as.1, as.2)
        else if c = close then some ([a.1], rest)
        else none

def itemsOrNone {α : Type} (item : Text → Option (α × Text)) (close : UInt8) (t : Text) :
    Option (List α × Text) :=
  if (skip t).head? = some close then some ([], (skip t).tail)
  else items item close (t.length + 1) t

def member (value : Text → Option (Value × Text)) (t : Text) : Option ((Text × Value) × Text) :=
  match skip t with
  | [] => none
  | c :: t =>
    if c = quote then
      (string t).bind fun key =>
        match skip key.2 with
        | [] => none
        | c :: t => if c = colon then (value t).map fun v => ((key.1, v.1), v.2) else none
    else none

def value : ℕ → Text → Option (Value × Text)
  | 0, _ => none
  | fuel + 1, t =>
    match skip t with
    | [] => none
    | c :: t =>
      if c = quote then (string t).map fun s => (.string s.1, s.2)
      else if c = 91 then (itemsOrNone (value fuel) 93 t).map fun vs => (.array vs.1, vs.2)
      else if c = 123 then
        (itemsOrNone (member (value fuel)) 125 t).map fun ms => (.object ms.1, ms.2)
      else scalar (c :: t)

def parse (t : Text) : Option Value :=
  (value (t.length + 1) t).bind fun v => if skip v.2 = [] then some v.1 else none

section Strings

theorem codeUnit_spec {t rest : Text} {n : ℕ} (h : codeUnit t = some (n, rest)) :
    ∃ e, t = e ++ rest ∧ e.length = 4 := by
  unfold codeUnit at h
  split at h
  · rename_i a b c d t
    split at h
    · obtain ⟨-, rfl⟩ := Prod.mk.inj (Option.some.inj h)
      exact ⟨[a, b, c, d], rfl, rfl⟩
    · cases h
  · cases h

theorem length_utf8 (n : ℕ) : (utf8 n).length ≤ 4 := by
  unfold utf8
  split_ifs <;> simp

theorem lowSurrogate_spec {t rest : Text} {n : ℕ} (h : lowSurrogate t = some (n, rest)) :
    ∃ e, t = e ++ rest := by
  unfold lowSurrogate at h
  split at h
  · split at h
    · rename_i v r hunit
      split_ifs at h
      obtain ⟨-, rfl⟩ := Prod.mk.inj (Option.some.inj h)
      obtain ⟨e, rfl, -⟩ := codeUnit_spec hunit
      exact ⟨92 :: 117 :: e, rfl⟩
    · cases h
  · cases h

theorem unicodeEscape_spec {t rest b : Text} (h : unicodeEscape t = some (b, rest)) :
    ∃ e, t = e ++ rest ∧ b.length ≤ e.length := by
  unfold unicodeEscape at h
  split at h
  · cases h
  · rename_i u r hunit
    obtain ⟨e, rfl, he⟩ := codeUnit_spec hunit
    split_ifs at h
    · obtain ⟨v, hv, hvr⟩ := Option.map_eq_some_iff.mp h
      obtain ⟨rfl, rfl⟩ := Prod.mk.inj hvr
      obtain ⟨low, rfl⟩ := lowSurrogate_spec hv
      have hlength := length_utf8 (0x10000 + (u - 0xD800) * 1024 + (v.1 - 0xDC00))
      refine ⟨e ++ low, (List.append_assoc _ _ _).symm, ?_⟩
      rw [List.length_append]
      omega
    · obtain ⟨rfl, rfl⟩ := Prod.mk.inj (Option.some.inj h)
      have hlength := length_utf8 u
      exact ⟨e, rfl, by omega⟩

/-- An escape takes no fewer bytes than it stands for, even without its backslash. -/
theorem escape_spec {t rest b : Text} (h : escape t = some (b, rest)) :
    ∃ e, t = e ++ rest ∧ b.length ≤ e.length := by
  cases t with
  | nil => cases h
  | cons c t =>
    rw [escape] at h
    split_ifs at h
    · obtain ⟨e, rfl, he⟩ := unicodeEscape_spec h
      exact ⟨c :: e, rfl, he.trans (Nat.le_succ _)⟩
    · obtain ⟨v, -, hvr⟩ := Option.map_eq_some_iff.mp h
      obtain ⟨rfl, rfl⟩ := Prod.mk.inj hvr
      exact ⟨[c], rfl, le_rfl⟩

/-- What is read as a value: the value itself, and more only where there is an escape. -/
structure ReadAs (u w : Text) : Prop where
  length_le : w.length ≤ u.length
  exact : u.length ≤ w.length → u = w ∧ quote ∉ w ∧ backslash ∉ w

theorem ReadAs.nil : ReadAs [] [] := ⟨le_rfl, fun _ => by simp⟩

theorem ReadAs.char {c : UInt8} {u w : Text} (hq : c ≠ quote) (hb : c ≠ backslash)
    (h : ReadAs u w) : ReadAs (c :: u) (c :: w) where
  length_le := by simpa using h.length_le
  exact hle := by
    obtain ⟨rfl, hquote, hbackslash⟩ := h.exact (by simpa using hle)
    exact ⟨rfl, List.not_mem_cons_of_ne_of_not_mem hq.symm hquote,
      List.not_mem_cons_of_ne_of_not_mem hb.symm hbackslash⟩

theorem ReadAs.escaped {c : UInt8} {e b u w : Text} (he : b.length ≤ e.length) (h : ReadAs u w) :
    ReadAs (c :: (e ++ u)) (b ++ w) where
  length_le := by
    have := h.length_le
    simp only [List.length_cons, List.length_append]
    omega
  exact hle := by
    have := h.length_le
    simp only [List.length_cons, List.length_append] at hle
    omega

theorem quoted_spec {fuel : ℕ} {t w rest : Text} (h : quoted fuel t = some (w, rest)) :
    ∃ u, t = u ++ quote :: rest ∧ ReadAs u w := by
  induction fuel generalizing t w with
  | zero => cases h
  | succ fuel ih =>
    cases t with
    | nil => cases h
    | cons c t =>
      rw [quoted] at h
      split_ifs at h with hq hb
      · obtain ⟨rfl, rfl⟩ := Prod.mk.inj (Option.some.inj h)
        exact ⟨[], by rw [hq]; rfl, .nil⟩
      · obtain ⟨e, he, htail⟩ := Option.bind_eq_some_iff.mp h
        obtain ⟨v, hv, hvr⟩ := Option.map_eq_some_iff.mp htail
        obtain ⟨rfl, rfl⟩ := Prod.mk.inj hvr
        obtain ⟨x, rfl, hx⟩ := escape_spec he
        obtain ⟨u, hu, hread⟩ := ih hv
        exact ⟨c :: (x ++ u), by rw [hu]; simp, hread.escaped hx⟩
      · obtain ⟨v, hv, hvr⟩ := Option.map_eq_some_iff.mp h
        obtain ⟨rfl, rfl⟩ := Prod.mk.inj hvr
        obtain ⟨u, rfl, hread⟩ := ih hv
        exact ⟨c :: u, rfl, hread.char hq hb⟩

/-- A character that stands for itself in a string. -/
def IsPlain (c : UInt8) : Prop := c ≠ quote ∧ c ≠ backslash ∧ ¬ c < 32

instance : DecidablePred IsPlain := fun c =>
  inferInstanceAs (Decidable (c ≠ quote ∧ c ≠ backslash ∧ ¬ c < 32))

theorem quoted_of_plain {fuel : ℕ} {v rest : Text} (hv : ∀ c ∈ v, IsPlain c)
    (hfuel : v.length < fuel) : quoted fuel (v ++ quote :: rest) = some (v, rest) := by
  induction v generalizing fuel with
  | nil =>
    obtain ⟨fuel, rfl⟩ := Nat.exists_eq_add_of_lt hfuel
    rw [List.nil_append, quoted, if_pos rfl]
  | cons c v ih =>
    obtain ⟨fuel, rfl⟩ : ∃ f, fuel = f + 1 := ⟨fuel - 1, by simp at hfuel; omega⟩
    rw [List.forall_mem_cons] at hv
    rw [List.cons_append, quoted, if_neg hv.1.1, if_neg hv.1.2.1, if_neg hv.1.2.2,
      ih hv.2 (by simpa using hfuel)]
    rfl

theorem string_of_plain {v : Text} (hv : ∀ c ∈ v, IsPlain c) (rest : Text) :
    string (v ++ quote :: rest) = some (v, rest) := by
  apply quoted_of_plain hv
  rw [List.length_append]
  omega

end Strings

section Objects

variable {key w : Text} {fuel : ℕ}

theorem skip_cons {c : UInt8} (h : isBlank c = false) (t : Text) : skip (c :: t) = c :: t := by
  rw [skip, List.dropWhile_cons, if_neg (by simp [h])]

theorem value_string (fuel : ℕ) (t : Text) : value (fuel + 1) (32 :: quote :: t) =
    (string t).map fun s => (.string s.1, s.2) := by
  have hskip : skip (32 :: quote :: t) = quote :: t := by
    rw [skip, List.dropWhile_cons, if_pos (by decide)]
    exact skip_cons (by decide) t
  rw [value, hskip]
  exact if_pos rfl

theorem member_string (hkey : ∀ c ∈ key, IsPlain c) (fuel : ℕ) (t : Text) :
    member (value (fuel + 1)) (quote :: (key ++ quote :: colon :: 32 :: quote :: t)) =
      (string t).map fun s => ((key, .string s.1), s.2) := by
  rw [member, skip_cons (by decide)]
  dsimp only
  rw [if_pos rfl, string_of_plain hkey, Option.bind_some, skip_cons (by decide)]
  dsimp only
  rw [if_pos rfl, value_string, Option.map_map]
  rfl

section Items

variable {α : Type} {item : Text → Option (α × Text)} {close : UInt8}

theorem items_ne_nil {t rest : Text} {as : List α} (h : items item close fuel t = some (as, rest)) :
    as ≠ [] := by
  cases fuel with
  | zero => cases h
  | succ fuel =>
    rw [items] at h
    obtain ⟨a, -, htail⟩ := Option.bind_eq_some_iff.mp h
    split at htail
    · cases htail
    · split_ifs at htail
      · obtain ⟨v, -, hvr⟩ := Option.map_eq_some_iff.mp htail
        rw [← (Prod.mk.inj hvr).1]
        exact List.cons_ne_nil _ _
      · rw [← (Prod.mk.inj (Option.some.inj htail)).1]
        exact List.cons_ne_nil _ _

theorem items_eq_singleton_iff (hclose : close ≠ comma) {t rest : Text} {a : α} :
    items item close (fuel + 1) t = some ([a], rest) ↔
      ∃ r, item t = some (a, r) ∧ skip r = close :: rest := by
  rw [items]
  constructor
  · intro h
    obtain ⟨⟨b, r⟩, hb, htail⟩ := Option.bind_eq_some_iff.mp h
    dsimp only at htail
    split at htail
    · cases htail
    · rename_i c tail hskip
      split_ifs at htail with hcomma hc
      · obtain ⟨⟨as, r'⟩, has, hvr⟩ := Option.map_eq_some_iff.mp htail
        have hnil := List.tail_eq_of_cons_eq (Prod.mk.inj hvr).1
        exact absurd hnil (items_ne_nil has)
      · obtain ⟨hlist, rfl⟩ := Prod.mk.inj (Option.some.inj htail)
        obtain rfl := List.head_eq_of_cons_eq hlist
        exact ⟨r, hb, by rw [hskip, hc]⟩
  · rintro ⟨r, hr, hskip⟩
    rw [hr, Option.bind_some]
    dsimp only
    rw [hskip]
    dsimp only
    rw [if_neg hclose, if_pos rfl]

end Items

theorem value_object (fuel : ℕ) (t : Text) : value (fuel + 1) (123 :: quote :: t) =
    (items (member (value fuel)) 125 (t.length + 1 + 1) (quote :: t)).map
      fun ms => (.object ms.1, ms.2) := by
  have hopen : (quote :: t).head? ≠ some 125 := by
    rw [List.head?_cons]
    decide
  rw [value, skip_cons (by decide)]
  dsimp only
  rw [if_neg (by decide), if_neg (by decide), if_pos rfl, itemsOrNone, skip_cons (by decide),
    if_neg hopen, List.length_cons]

theorem parse_eq_member_iff (hkey : ∀ c ∈ key, IsPlain c) (t : Text) :
    parse (123 :: quote :: (key ++ quote :: colon :: 32 :: quote :: t)) =
        some (.object [(key, .string w)]) ↔
      ∃ rest tail, string t = some (w, rest) ∧ skip rest = 125 :: tail ∧ skip tail = [] := by
  rw [parse, value_object]
  constructor
  · intro h
    obtain ⟨⟨v, tail⟩, hvalue, hend⟩ := Option.bind_eq_some_iff.mp h
    split_ifs at hend with htail
    obtain ⟨⟨ms, r⟩, hitems, hobject⟩ := Option.map_eq_some_iff.mp hvalue
    obtain ⟨rfl, rfl⟩ := Prod.mk.inj hobject
    obtain rfl : ms = [(key, .string w)] := by simpa using hend
    obtain ⟨rest, hmember, hrest⟩ := (items_eq_singleton_iff (by decide)).mp hitems
    rw [List.length_cons, member_string hkey] at hmember
    obtain ⟨⟨w', rest'⟩, hstring, hw⟩ := Option.map_eq_some_iff.mp hmember
    obtain ⟨rfl, rfl⟩ : w' = w ∧ rest' = rest := by simpa using hw
    exact ⟨rest', r, hstring, hrest, htail⟩
  · rintro ⟨rest, tail, hstring, hrest, htail⟩
    have hmember := member_string hkey ((key ++ quote :: colon :: 32 :: quote :: t).length + 1) t
    rw [hstring, Option.map_some] at hmember
    rw [List.length_cons, List.length_cons,
      (items_eq_singleton_iff (by decide)).mpr ⟨rest, hmember, hrest⟩, Option.map_some,
      Option.bind_some]
    exact if_pos htail

/-- A string between quotes is read back as itself exactly if there is no quote and no
backslash in it. -/
theorem parse_eq_member_self_iff (hkey : ∀ c ∈ key, IsPlain c) (hw : ∀ c ∈ w, ¬ c < 32) :
    parse (123 :: quote :: (key ++ quote :: colon :: 32 :: quote :: (w ++ [quote, 125]))) =
        some (.object [(key, .string w)]) ↔ quote ∉ w ∧ backslash ∉ w := by
  rw [parse_eq_member_iff hkey]
  constructor
  · rintro ⟨rest, tail, hstring, hrest, -⟩
    obtain ⟨u, hu, hread⟩ := quoted_spec hstring
    have hpos : 1 ≤ rest.length := by
      have hle := (List.dropWhile_suffix isBlank (l := rest)).length_le
      rw [skip] at hrest
      rw [hrest, List.length_cons] at hle
      omega
    have hlength := congrArg List.length hu
    simp only [List.length_append, List.length_cons, List.length_nil] at hlength
    exact (hread.exact (by omega)).2
  · rintro ⟨hquote, hbackslash⟩
    refine ⟨[125], [], string_of_plain (fun c hc => ?_) [125], by decide, rfl⟩
    exact ⟨fun h => hquote (h ▸ hc), fun h => hbackslash (h ▸ hc), hw c hc⟩

end Objects

end Webcrown.Json
