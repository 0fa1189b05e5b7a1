import Webcrown.Common.StringUtils

/-!
# URL encoding

`URLEncode` writes into memory of three bytes for each byte of its text and one more, and
`URLDecode` decodes a copy of its text in place. A text is read up to its first NUL. Undefined
behaviour is `none`: an `int` that overflows, and an access outside of the memory.
-/

namespace Webcrown.Common.UrlHelper

def percent : UInt8 := 37

/-- What `c_str` and `strlen` leave of a string. -/
def cString (s : ByteString) : ByteString := s.takeWhile (· != 0)

def hexchars : ByteString := ascii "0123456789ABCDEF"

/-- Allocated memory and what has been written to it from its start on. -/
structure Buffer where
  capacity : ℕ
  written : ByteString
  fits : written.length ≤ capacity

def Buffer.put (b : Buffer) (c : UInt8) : Option Buffer :=
  if h : b.written.length < b.capacity then
    some ⟨b.capacity, b.written ++ [c], by simpa using h⟩
  else none

def Buffer.putEscape (b : Buffer) (c : UInt8) : Option Buffer := do
  let high ← hexchars[(c >>> 4).toNat]?
  let low ← hexchars[(c &&& 15).toNat]?
  let b ← b.put percent
  let b ← b.put high
  b.put low

/-- The characters that `URLEncode` does not copy. -/
def escaped (c : UInt8) : Bool :=
  (c < 48 && c != 45 && c != 46) || (c < 65 && c > 57) || (c > 90 && c < 97 && c != 95) || c > 122

def Buffer.putEncoded (b : Buffer) (c : UInt8) : Option Buffer :=
  if c = sp then b.put 43 else if escaped c then b.putEscape c else b.put c

def encodeLoop : ByteString → Buffer → Option Buffer
  | [], b => some b
  | c :: inStr, b => do
    let b ← b.putEncoded c
    encodeLoop inStr b

def urlEncode (strSource : ByteString) : Option ByteString :=
  let inStr := cString strSource
  if 3 * inStr.length + 1 < 2 ^ 31 then do
    let b ← encodeLoop inStr ⟨3 * inStr.length + 1, [], Nat.zero_le _⟩
    let b ← b.put 0
    return cString b.written
  else none

/-- `isxdigit` of the C locale, which is given `char`s and is false for negative ones. -/
def isXDigit (c : UInt8) : Bool :=
  (48 ≤ c && c ≤ 57) || (65 ≤ c && c ≤ 70) || (97 ≤ c && c ≤ 102)

def hexValue (c : UInt8) : ℤ :=
  let c := toLowerInternal c
  if 48 ≤ c && c ≤ 57 then c.toNat - 48 else c.toNat - 97 + 10

def htoi (high low : UInt8) : ℤ := hexValue high * 16 + hexValue low

/-- The memory of `URLDecode` with its two pointers into it. -/
structure Decoding where
  mem : ByteString
  dest : ℕ
  data : ℕ

def Decoding.write (d : Decoding) (c : UInt8) : Option Decoding :=
  if d.dest < d.mem.length then some { d with mem := d.mem.set d.dest c } else none

/-- `isxdigit(data[1]) && isxdigit(data[2])`, with the two digits. -/
def Decoding.hexPair (d : Decoding) : Option (Option (UInt8 × UInt8)) := do
  let high ← d.mem[d.data + 1]?
  if isXDigit high then
    let low ← d.mem[d.data + 2]?
    return if isXDigit low then some (high, low) else none
  else return none

/-- The digits of an escape of which `c` is the first character, if it is one. -/
def Decoding.escape (d : Decoding) (c : UInt8) (inStrLen : ℕ) :
    Option (Option (UInt8 × UInt8)) :=
  if c ≠ 43 ∧ c = percent ∧ inStrLen ≥ 2 then d.hexPair else some none

/-- One turn of the loop of `URLDecode`, in which `in_str_len` has been decremented: what it
leaves, and by how much `in_str_len` is decremented further. -/
def Decoding.turn (d : Decoding) (inStrLen : ℕ) : Option (Decoding × ℕ) := do
  let c ← d.mem[d.data]?
  match ← d.escape c inStrLen with
  | some (high, low) =>
    let d ← d.write (UInt8.ofInt (htoi high low))
    return ({ d with data := d.data + 3, dest := d.dest + 1 }, 2)
  | none =>
    let d ← d.write (if c = 43 then sp else c)
    return ({ d with data := d.data + 1, dest := d.dest + 1 }, 0)

/-- The loop of `URLDecode`. Every turn decrements `in_str_len`, so the first argument bounds the
turns. -/
def decodeLoop : ℕ → ℕ → Decoding → Option Decoding
  | _, 0, d => some d
  | 0, _ + 1, _ => none
  | fuel + 1, inStrLen + 1, d => do
    let (d, more) ← d.turn inStrLen
    decodeLoop fuel (inStrLen - more) d

def urlDecode (strSource : ByteString) : Option ByteString :=
  let inStr := cString strSource
  if inStr.length < 2 ^ 31 then do
    let d ← decodeLoop inStr.length inStr.length ⟨inStr ++ [0], 0, 0⟩
    let d ← d.write 0
    return cString d.mem
  else none

theorem cString_eq_self {s : ByteString} (h : 0 ∉ s) : cString s = s := by
  rw [cString, List.takeWhile_eq_self_iff]
  rintro c hc
  rw [bne_iff_ne]
  rintro rfl
  exact h hc

theorem zero_notMem_cString (s : ByteString) : 0 ∉ cString s := fun h =>
  absurd (List.mem_takeWhile_imp h) (by decide)

theorem cString_append_zero (s t : ByteString) : cString (s ++ 0 :: t) = cString s := by
  induction s with
  | nil => rfl
  | cons c s ih =>
    rw [cString, cString, List.cons_append, List.takeWhile_cons, List.takeWhile_cons]
    split_ifs
    · exact congrArg _ ih
    · rfl

section Encoding

def encodedByte (c : UInt8) : ByteString :=
  if c = sp then [43]
  else if escaped c then
    [percent, hexchars[(c >>> 4).toNat]?.getD 0, hexchars[(c &&& 15).toNat]?.getD 0]
  else [c]

def encoded (s : ByteString) : ByteString := s.flatMap encodedByte

/-- `b'` holds the text of `b` and `s` behind it. -/
def Buffer.Appended (b : Buffer) (s : ByteString) (b' : Buffer) : Prop :=
  b'.capacity = b.capacity ∧ b'.written = b.written ++ s

theorem Buffer.Appended.trans {b b' b'' : Buffer} {s t : ByteString} (h : b.Appended s b')
    (h' : b'.Appended t b'') : b.Appended (s ++ t) b'' :=
  ⟨h'.1.trans h.1, by rw [h'.2, h.2, List.append_assoc]⟩

theorem Buffer.put_eq {b : Buffer} {c : UInt8} (h : b.written.length < b.capacity) :
    ∃ b', b.put c = some b' ∧ b.Appended [c] b' :=
  ⟨_, dif_pos h, rfl, rfl⟩

theorem hexchars_eq : hexchars =
    [48, 49, 50, 51, 52, 53, 54, 55, 56, 57, 65, 66, 67, 68, 69, 70] := by
  decide +kernel

theorem nibbles_lt (c : UInt8) : (c >>> 4).toNat < 16 ∧ (c &&& 15).toNat < 16 := by
  revert c
  exact forall_byte (by decide +kernel)

theorem getElem?_hexchars {k : ℕ} (h : k < 16) :
    hexchars[k]? = some (hexchars[k]?.getD 0) := by
  rw [List.getElem?_eq_getElem (by rw [hexchars_eq]; exact h), Option.getD_some]

theorem Buffer.putEscape_eq {b : Buffer} {c : UInt8} (h : b.written.length + 2 < b.capacity) :
    ∃ b', b.putEscape c = some b' ∧ b.Appended [percent, hexchars[(c >>> 4).toNat]?.getD 0,
      hexchars[(c &&& 15).toNat]?.getD 0] b' := by
  obtain ⟨hhigh, hlow⟩ := nibbles_lt c
  obtain ⟨b₁, h₁, happ₁⟩ := b.put_eq (c := percent) (by omega)
  have hlen₁ : b₁.written.length = b.written.length + 1 := by rw [happ₁.2]; simp
  obtain ⟨b₂, h₂, happ₂⟩ := b₁.put_eq (c := hexchars[(c >>> 4).toNat]?.getD 0)
    (by rw [hlen₁, happ₁.1]; omega)
  have hlen₂ : b₂.written.length = b.written.length + 2 := by rw [happ₂.2]; simp [hlen₁]
  obtain ⟨b₃, h₃, happ₃⟩ := b₂.put_eq (c := hexchars[(c &&& 15).toNat]?.getD 0)
    (by rw [hlen₂, happ₂.1, happ₁.1]; omega)
  refine ⟨b₃, ?_, (happ₁.trans happ₂).trans happ₃⟩
  rw [putEscape, getElem?_hexchars hhigh, getElem?_hexchars hlow]
  simp only [Option.bind_eq_bind, Option.bind_some, h₁, h₂, h₃]

theorem Buffer.putEncoded_eq {b : Buffer} {c : UInt8} (h : b.written.length + 2 < b.capacity) :
    ∃ b', b.putEncoded c = some b' ∧ b.Appended (encodedByte c) b' := by
  unfold putEncoded encodedByte
  split_ifs
  · exact b.put_eq (by omega)
  · exact b.putEscape_eq h
  · exact b.put_eq (by omega)

theorem length_encodedByte (c : UInt8) : (encodedByte c).length ≤ 3 := by
  unfold encodedByte
  split_ifs <;> simp

theorem length_encoded (s : ByteString) : (encoded s).length ≤ 3 * s.length := by
  induction s with
  | nil => simp [encoded]
  | cons c s ih =>
    have hc := length_encodedByte c
    rw [encoded, List.flatMap_cons, List.length_append, List.length_cons]
    unfold encoded at ih
    omega

theorem encodeLoop_eq {s : ByteString} {b : Buffer}
    (h : b.written.length + 3 * s.length ≤ b.capacity) :
    ∃ b', encodeLoop s b = some b' ∧ b.Appended (encoded s) b' := by
  induction s generalizing b with
  | nil => exact ⟨b, rfl, rfl, by simp [encoded]⟩
  | cons c s ih =>
    rw [List.length_cons] at h
    obtain ⟨b₁, hput, happ⟩ := b.putEncoded_eq (c := c) (by omega)
    have hlen := length_encodedByte c
    obtain ⟨b₂, hloop, happ₂⟩ := ih (b := b₁) (by
      rw [happ.1, happ.2, List.length_append]
      omega)
    refine ⟨b₂, ?_, happ.trans happ₂⟩
    rw [encodeLoop, hput]
    exact hloop

def unreserved (c : UInt8) : Bool :=
  isAlpha c || isDigit c || [percent, 43, 45, 46, 95].contains c

theorem unreserved_hexchars (k : ℕ) (h : k < 16) :
    unreserved (hexchars[k]?.getD 0) = true := by
  rw [hexchars_eq]
  decide +revert

theorem unreserved_of_not_escaped {c : UInt8} (hspace : c ≠ sp) (h : escaped c = false) :
    unreserved c = true := by
  revert hspace h
  exact forall_byte (P := fun c => c ≠ sp → escaped c = false → unreserved c = true)
    (by decide +kernel) c

theorem unreserved_of_mem_encodedByte (c : UInt8) : ∀ d ∈ encodedByte c, unreserved d = true := by
  unfold encodedByte
  split_ifs with hspace hescaped
  · decide +kernel
  · obtain ⟨hhigh, hlow⟩ := nibbles_lt c
    intro d hd
    simp only [List.mem_cons, List.not_mem_nil, or_false] at hd
    obtain rfl | rfl | rfl := hd
    · decide
    · exact unreserved_hexchars _ hhigh
    · exact unreserved_hexchars _ hlow
  · intro d hd
    rw [List.mem_singleton.mp hd]
    exact unreserved_of_not_escaped hspace (Bool.eq_false_iff.mpr hescaped)

theorem unreserved_of_mem_encoded {s : ByteString} {d : UInt8} (h : d ∈ encoded s) :
    unreserved d = true := by
  obtain ⟨c, -, hd⟩ := List.mem_flatMap.mp h
  exact unreserved_of_mem_encodedByte c d hd

theorem zero_notMem_encoded (s : ByteString) : 0 ∉ encoded s := fun h =>
  absurd (unreserved_of_mem_encoded h) (by decide)

theorem urlEncode_eq {s : ByteString} (h : 3 * (cString s).length + 1 < 2 ^ 31) :
    urlEncode s = some (encoded (cString s)) := by
  obtain ⟨b, hloop, hcap, hwritten⟩ := encodeLoop_eq (s := cString s)
    (b := ⟨3 * (cString s).length + 1, [], Nat.zero_le _⟩) (by simp)
  have hlen := length_encoded (cString s)
  obtain ⟨b', hput, -, hwritten'⟩ := b.put_eq (c := 0) (by rw [hcap, hwritten]; simp; omega)
  rw [urlEncode]
  simp only [if_pos h, Option.bind_eq_bind, hloop, Option.bind_some, hput]
  rw [hwritten', hwritten, List.nil_append, cString_append_zero,
    cString_eq_self (zero_notMem_encoded _)]
  rfl

end Encoding

section Decoding

def plusToSpace (c : UInt8) : UInt8 := if c = 43 then sp else c

/-- The decoded text, without the memory it stands in. Nothing of fewer than three bytes is an
escape. -/
def decoded : ByteString → ByteString
  | c :: high :: low :: t =>
    if c = percent ∧ isXDigit high = true ∧ isXDigit low = true then
      UInt8.ofInt (htoi high low) :: decoded t
    else plusToSpace c :: decoded (high :: low :: t)
  | s => s.map plusToSpace

theorem decoded_pair {high low : UInt8} (h : isXDigit high = true ∧ isXDigit low = true)
    (t : ByteString) :
    decoded (percent :: high :: low :: t) = UInt8.ofInt (htoi high low) :: decoded t := by
  rw [decoded, if_pos ⟨rfl, h⟩]

theorem decoded_copy {c : UInt8} {s : ByteString}
    (h : c = percent → ∀ high low t, s = high :: low :: t →
      ¬ (isXDigit high = true ∧ isXDigit low = true)) :
    decoded (c :: s) = plusToSpace c :: decoded s := by
  match s with
  | [] => rfl
  | [_] => rfl
  | high :: low :: t => rw [decoded, if_neg fun hpair => h hpair.1 high low t rfl hpair.2]

theorem Decoding.write_eq {d : Decoding} (h : d.dest < d.mem.length) (c : UInt8) :
    d.write c = some { d with mem := d.mem.set d.dest c } :=
  if_pos h

theorem take_set (s : ByteString) {k : ℕ} (h : k < s.length) (c : UInt8) :
    (s.set k c).take (k + 1) = s.take k ++ [c] := by
  rw [List.take_succ_eq_append_getElem (by simpa using h), List.getElem_set_self,
    List.take_set_of_le le_rfl]

/-- What one turn does with the memory: a byte more in front, and nothing changed from the
reading position on. -/
structure Decoding.Step (d : Decoding) (x : UInt8) (more : ℕ) (d' : Decoding) : Prop where
  dest : d'.dest = d.dest + 1
  data : d'.data = d.data + 1 + more
  length : d'.mem.length = d.mem.length
  front : d'.mem.take d'.dest = d.mem.take d.dest ++ [x]
  rest : d'.mem.drop d'.data = d.mem.drop d'.data

theorem Decoding.step {d : Decoding} (hdest : d.dest ≤ d.data) (hlen : d.dest < d.mem.length)
    (x : UInt8) (more : ℕ) :
    d.Step x more ⟨d.mem.set d.dest x, d.dest + 1, d.data + 1 + more⟩ where
  dest := rfl
  data := rfl
  length := List.length_set
  front := take_set _ hlen x
  rest := List.drop_set_of_lt (by dsimp only; omega)

theorem Decoding.turn_none {d : Decoding} {k : ℕ} {c : UInt8} (hlen : d.dest < d.mem.length)
    (hread : d.mem[d.data]? = some c) (hescape : d.escape c k = some none) :
    d.turn k = some (⟨d.mem.set d.dest (plusToSpace c), d.dest + 1, d.data + 1⟩, 0) := by
  rw [turn, hread]
  simp only [Option.bind_eq_bind, Option.bind_some, hescape, write_eq hlen]
  rfl

theorem Decoding.turn_some {d : Decoding} {k : ℕ} {c high low : UInt8}
    (hlen : d.dest < d.mem.length) (hread : d.mem[d.data]? = some c)
    (hescape : d.escape c k = some (some (high, low))) :
    d.turn k =
      some (⟨d.mem.set d.dest (UInt8.ofInt (htoi high low)), d.dest + 1, d.data + 3⟩, 2) := by
  rw [turn, hread]
  simp only [Option.bind_eq_bind, Option.bind_some, hescape, write_eq hlen]
  rfl

theorem Decoding.escape_eq {d : Decoding} {k : ℕ} {c high low : UInt8} (hk : k ≥ 2)
    (hhigh : d.mem[d.data + 1]? = some high) (hlow : d.mem[d.data + 2]? = some low) :
    d.escape c k = some (if c = percent ∧ isXDigit high = true ∧ isXDigit low = true then
      some (high, low) else none) := by
  unfold escape hexPair
  rw [hhigh, hlow]
  by_cases hc : c = percent
  · subst hc
    cases hdigit : isXDigit high <;> simp [hk, percent, hdigit]
  · simp [hc]

theorem Decoding.escape_of_lt {d : Decoding} {k : ℕ} {c : UInt8} (hk : k < 2) :
    d.escape c k = some none := by
  rw [escape, if_neg (by omega)]

theorem Decoding.turn_eq {d : Decoding} {k : ℕ} (hdest : d.dest ≤ d.data)
    (hlen : d.data + (k + 1) < d.mem.length) :
    ∃ d' x more, d.turn k = some (d', more) ∧ more ≤ k ∧ d.Step x more d' ∧
      decoded ((d.mem.drop d.data).take (k + 1)) =
        x :: decoded ((d'.mem.drop d'.data).take (k - more)) := by
  have hstep := d.step hdest (by omega)
  have hread : d.mem[d.data]? = some d.mem[d.data] := List.getElem?_eq_getElem (by omega)
  rw [List.drop_eq_getElem_cons (by omega), List.take_succ_cons]
  generalize d.mem[d.data] = c at hread
  have hcopy : d.escape c k = some none → (decoded (c :: (d.mem.drop (d.data + 1)).take k) =
      plusToSpace c :: decoded ((d.mem.drop (d.data + 1)).take k)) →
      ∃ d' x more, d.turn k = some (d', more) ∧ more ≤ k ∧ d.Step x more d' ∧
        decoded (c :: (d.mem.drop (d.data + 1)).take k) =
          x :: decoded ((d'.mem.drop d'.data).take (k - more)) := fun hescape hdecoded =>
    ⟨_, _, 0, turn_none (by omega) hread hescape, Nat.zero_le k, hstep _ 0,
      by rw [hdecoded, (hstep _ 0).rest]; rfl⟩
  by_cases hk : k ≥ 2
  swap
  · refine hcopy (escape_of_lt (by omega)) (decoded_copy fun _ high low t ht => ?_)
    have hlength := congrArg List.length ht
    simp only [List.length_take, List.length_drop, List.length_cons] at hlength
    omega
  obtain ⟨j, rfl⟩ : ∃ j, k = j + 2 := ⟨k - 2, by omega⟩
  have hhigh : d.mem[d.data + 1]? = some d.mem[d.data + 1] := List.getElem?_eq_getElem (by omega)
  have hlow : d.mem[d.data + 2]? = some d.mem[d.data + 2] := List.getElem?_eq_getElem (by omega)
  have htext : (d.mem.drop (d.data + 1)).take (j + 2) =
      d.mem[d.data + 1] :: d.mem[d.data + 2] :: (d.mem.drop (d.data + 3)).take j := by
    rw [List.drop_eq_getElem_cons (by omega), List.take_succ_cons,
      List.drop_eq_getElem_cons (by omega), List.take_succ_cons]
  have hescape := escape_eq (c := c) (Nat.le_add_left 2 j) hhigh hlow
  generalize d.mem[d.data + 1] = high at htext hescape
  generalize d.mem[d.data + 2] = low at htext hescape
  by_cases hpair : c = percent ∧ isXDigit high = true ∧ isXDigit low = true
  · rw [if_pos hpair] at hescape
    refine ⟨_, _, 2, turn_some (by omega) hread hescape, by omega, hstep _ 2, ?_⟩
    rw [(hstep _ 2).rest, htext, hpair.1, decoded_pair hpair.2]
    rfl
  · rw [if_neg hpair] at hescape
    refine hcopy hescape (decoded_copy fun hc high' low' t ht hdigits => hpair ⟨hc, ?_⟩)
    rw [htext, List.cons.injEq, List.cons.injEq] at ht
    rwa [ht.1, ht.2.1]

/-- Decoding in place is decoding: the bytes in front of `dest` are those that have been decoded,
and the bytes from `data` on are still those of the text. -/
theorem decodeLoop_eq {fuel n : ℕ} {d : Decoding} (hfuel : n ≤ fuel) (hdest : d.dest ≤ d.data)
    (hlen : d.data + n < d.mem.length) :
    ∃ d', decodeLoop fuel n d = some d' ∧ d'.mem.length = d.mem.length ∧
      d'.dest ≤ d.data + n ∧
      d'.mem.take d'.dest = d.mem.take d.dest ++ decoded ((d.mem.drop d.data).take n) := by
  induction fuel generalizing n d with
  | zero =>
    obtain rfl : n = 0 := by omega
    exact ⟨d, by rw [decodeLoop], rfl, by omega, by simp [decoded]⟩
  | succ fuel ih =>
    cases n with
    | zero => exact ⟨d, by rw [decodeLoop], rfl, by omega, by simp [decoded]⟩
    | succ k =>
      obtain ⟨d₁, x, more, hturn, hmore, hstep, hdecoded⟩ := Decoding.turn_eq hdest hlen
      have hdata := hstep.data
      have hlength := hstep.length
      obtain ⟨d', hloop, hlength', hdest', htake⟩ := ih (n := k - more) (d := d₁) (by omega)
        (by rw [hstep.dest, hdata]; omega) (by omega)
      refine ⟨d', ?_, by omega, by omega, ?_⟩
      · rw [decodeLoop, hturn]
        exact hloop
      · rw [htake, hstep.front, hdecoded, List.append_assoc]
        rfl

theorem urlDecode_eq {s : ByteString} (h : (cString s).length < 2 ^ 31) :
    urlDecode s = some (cString (decoded (cString s))) := by
  obtain ⟨d, hloop, hlength, hdest, htake⟩ := decodeLoop_eq (d := ⟨cString s ++ [0], 0, 0⟩)
    (le_refl (cString s).length) le_rfl (by simp)
  simp only [List.length_append, List.length_singleton, Nat.zero_add] at hlength hdest
  have hwrite := d.write_eq (by omega) 0
  have hmem : d.mem.set d.dest 0 =
      decoded (cString s) ++ 0 :: (d.mem.drop (d.dest + 1)) := by
    rw [List.set_eq_take_append_cons_drop, if_pos (by omega), htake]
    simp
  rw [urlDecode]
  simp only [if_pos h, Option.bind_eq_bind, hloop, Option.bind_some, hwrite]
  rw [hmem, cString_append_zero]
  rfl

end Decoding

section RoundTrip

theorem hexValue_hexchars {k : ℕ} (h : k < 16) :
    isXDigit (hexchars[k]?.getD 0) = true ∧ hexValue (hexchars[k]?.getD 0) = k := by
  rw [hexchars_eq]
  interval_cases k <;> decide

theorem ofInt_nibbles (c : UInt8) :
    UInt8.ofInt ((c >>> 4).toNat * 16 + (c &&& 15).toNat) = c := by
  revert c
  exact forall_byte (by decide +kernel)

theorem escape_digits (c : UInt8) :
    isXDigit (hexchars[(c >>> 4).toNat]?.getD 0) = true ∧
      isXDigit (hexchars[(c &&& 15).toNat]?.getD 0) = true ∧
      UInt8.ofInt (htoi (hexchars[(c >>> 4).toNat]?.getD 0)
        (hexchars[(c &&& 15).toNat]?.getD 0)) = c := by
  obtain ⟨hhigh, hlow⟩ := nibbles_lt c
  obtain ⟨hhighDigit, hhighValue⟩ := hexValue_hexchars hhigh
  obtain ⟨hlowDigit, hlowValue⟩ := hexValue_hexchars hlow
  refine ⟨hhighDigit, hlowDigit, ?_⟩
  rw [htoi, hhighValue, hlowValue]
  exact ofInt_nibbles c

theorem copied_of_not_escaped {c : UInt8} (h : escaped c = false) :
    c ≠ percent ∧ plusToSpace c = c := by
  revert h
  exact forall_byte (P := fun c => escaped c = false → c ≠ percent ∧ plusToSpace c = c)
    (by decide +kernel) c

theorem decoded_encodedByte (c : UInt8) (s : ByteString) :
    decoded (encodedByte c ++ s) = c :: decoded s := by
  unfold encodedByte
  split_ifs with hspace hescaped
  · rw [hspace, List.singleton_append, decoded_copy fun h => absurd h (by decide)]
    rfl
  · obtain ⟨hhigh, hlow, hvalue⟩ := escape_digits c
    rw [List.cons_append, List.cons_append, List.singleton_append, decoded_pair ⟨hhigh, hlow⟩,
      hvalue]
  · obtain ⟨hpercent, hplus⟩ := copied_of_not_escaped (Bool.eq_false_iff.mpr hescaped)
    rw [List.singleton_append, decoded_copy fun h => absurd h hpercent, hplus]

/-- Decoding undoes encoding. -/
theorem decoded_encoded (s : ByteString) : decoded (encoded s) = s := by
  induction s with
  | nil => rfl
  | cons c s ih =>
    rw [encoded, List.flatMap_cons, decoded_encodedByte]
    exact congrArg _ ih

/-- Where the sizes fit an `int`, both functions stay in their memory. Decoding in place is
decoding from left to right, up to a NUL that it makes of `%00`, and decoding an encoded text
gives the text up to its first NUL. -/
theorem url_coding :
    (∀ s, (cString s).length < 2 ^ 31 → urlDecode s = some (cString (decoded (cString s)))) ∧
    ∀ s, 3 * (cString s).length + 1 < 2 ^ 31 →
      ∃ e, urlEncode s = some e ∧ (∀ c ∈ e, unreserved c = true) ∧
        urlDecode e = some (cString s) := by
  refine ⟨fun s => urlDecode_eq, fun s h => ?_⟩
  refine ⟨_, urlEncode_eq h, fun c => unreserved_of_mem_encoded, ?_⟩
  have htext : cString (encoded (cString s)) = encoded (cString s) :=
    cString_eq_self (zero_notMem_encoded _)
  have hlength := length_encoded (cString s)
  rw [urlDecode_eq (by rw [htext]; omega), htext, decoded_encoded,
    cString_eq_self (zero_notMem_cString s)]

theorem url_coding_cafe :
    urlDecode (ascii "R%2BD+caf%E9") = some (ascii "R+D caf" ++ [233]) ∧
      ∃ e, urlEncode (ascii "R+D caf" ++ [233, 0, 65]) = some e ∧
        (∀ c ∈ e, unreserved c = true) ∧ urlDecode e = some (ascii "R+D caf" ++ [233]) := by
  have hdecoded :
      cString (decoded (cString (ascii "R%2BD+caf%E9"))) = ascii "R+D caf" ++ [233] := by
    decide +kernel
  have htext : cString (ascii "R+D caf" ++ [233, 0, 65]) = ascii "R+D caf" ++ [233] := by
    decide +kernel
  obtain ⟨e, hencode, hplain, hdecode⟩ :=
    url_coding.2 (ascii "R+D caf" ++ [233, 0, 65]) (by rw [htext]; decide +kernel)
  refine ⟨?_, e, hencode, hplain, ?_⟩
  · rw [url_coding.1 _ (by decide +kernel), hdecoded]
  · rw [hdecode, htext]

end RoundTrip

end Webcrown.Common.UrlHelper
