import Webcrown.Http.Parser

/-!
# The request line

`RequestLine` is what `parse_start_line` accepts in front of the header block, as
a condition on the text. A call that accepts leaves the iterator behind the line;
any other call sets an error in a phase from which no later call goes on.
-/

namespace Webcrown.Http

open Bytes Common

/-- `t` is a request line for method `n` and target `g`, followed by `u`. The line
end is taken when either of its two bytes is right. -/
def RequestLine (t n g u : ByteString) : Prop :=
  ∃ x y, t = n ++ sp :: (g ++ sp :: (ascii "HTTP/1.1" ++ x :: y :: u)) ∧
    (n ≠ [] ∧ ∀ c ∈ n, isAlpha c = true) ∧ (g ≠ [] ∧ ∀ c ∈ g, isPathchar c = true) ∧
    (x = cr ∨ y = lf)

theorem RequestLine.rest {t n g u : ByteString} (h : RequestLine t n g u) :
    ∃ s, t = s ++ u ∧ 10 ≤ s.length := by
  obtain ⟨x, y, rfl, -⟩ := h
  refine ⟨n ++ sp :: (g ++ sp :: (ascii "HTTP/1.1" ++ [x, y])), by simp, ?_⟩
  simp [ascii]
  omega

theorem token_unique {f : UInt8 → Bool} {d : UInt8} {s s' x x' : ByteString}
    (hs : ∀ c ∈ s, f c = true) (hs' : ∀ c ∈ s', f c = true) (hd : f d = false)
    (h : s ++ d :: x = s' ++ d :: x') : s = s' ∧ x = x' := by
  have htake := congrArg (List.takeWhile f) h
  rw [List.takeWhile_append_of_pos hs, List.takeWhile_append_of_pos hs'] at htake
  have hss : s = s' := by simpa [List.takeWhile_cons, hd] using htake
  subst hss
  exact ⟨rfl, (List.cons.inj (List.append_cancel_left h)).2⟩

theorem RequestLine.unique {t n g u n' g' u' : ByteString} (h : RequestLine t n g u)
    (h' : RequestLine t n' g' u') : n = n' ∧ g = g' ∧ u = u' := by
  obtain ⟨x, y, rfl, hn, hg, -⟩ := h
  obtain ⟨x', y', ht, hn', hg', -⟩ := h'
  obtain ⟨hnn, hrest⟩ := token_unique hn.2 hn'.2 (by decide) ht
  obtain ⟨hgg, hrest⟩ := token_unique hg.2 hg'.2 (by decide) hrest
  have htail := List.append_cancel_left hrest
  simp only [List.cons.injEq] at htail
  exact ⟨hnn, hgg, htail.2.2⟩

def ParsePhase.dead (phase : ParsePhase) : Prop :=
  phase = .parseMethod ∨ phase = .parseTarget ∨ phase = .parseProtocolVersion ∨
    phase = .parseProtocolVersionFinished

theorem isSpace_of_isAlpha {c : UInt8} (h : isAlpha c = true) : isSpace c = false := by
  revert h
  exact forall_byte (P := fun c => isAlpha c = true → isSpace c = false) (by decide +kernel) c

theorem toNat_of_isDigit {c : UInt8} (h : isDigit c = true) : 48 ≤ c.toNat ∧ c.toNat ≤ 57 := by
  revert h
  exact forall_byte (P := fun c => isDigit c = true → 48 ≤ c.toNat ∧ c.toNat ≤ 57)
    (by decide +kernel) c

variable {m : ℕ → UInt8} {last it : ℕ}

theorem word_of_slice {n t : ByteString} (ht : slice m it last = n ++ sp :: t) (htail : t ≠ []) :
    it + n.length + 1 < last ∧ slice m it (it + n.length) = n ∧ m (it + n.length) = sp := by
  have hl := congrArg List.length ht
  simp only [length_slice, List.length_append, List.length_cons] at hl
  have htl := List.length_pos_iff.mpr htail
  obtain ⟨hfirst, hrest⟩ := slice_eq_append ht
  obtain ⟨-, hsp, -⟩ := slice_eq_cons hrest
  exact ⟨by omega, hfirst, hsp⟩

theorem slice_of_word {p : ℕ} (hit : it < p) (hlast : p + 1 < last) (hsp : m p = sp) :
    slice m it last = slice m it p ++ sp :: slice m (p + 1) last ∧ slice m it p ≠ [] ∧
      slice m (p + 1) last ≠ [] := by
  refine ⟨?_, ?_, ?_⟩
  · rw [← hsp, ← slice_cons m (by omega), slice_append m hit.le (by omega)]
  · rw [slice_cons m hit]
    exact List.cons_ne_nil _ _
  · rw [slice_cons m hlast]
    exact List.cons_ne_nil _ _

theorem parseMethod_of_text {n t : ByteString} (ht : slice m it last = n ++ sp :: t)
    (hn : n ≠ []) (halpha : ∀ c ∈ n, isAlpha c = true) (htail : t ≠ []) (ec : ErrorCode) :
    parseMethod m last it ec = ⟨it + n.length + 1, n, ec, .parseMethodFinished⟩ := by
  obtain ⟨hlast, hfirst, hsp⟩ := word_of_slice ht htail
  have hspace : isSpace (m it) = false := by
    obtain ⟨c, n', rfl⟩ := List.exists_cons_of_ne_nil hn
    obtain ⟨-, hc, -⟩ := slice_eq_cons ht
    exact hc ▸ isSpace_of_isAlpha (halpha c (by simp))
  have hscan : scan (fun k => !isTokenChar (m k) || !isAlpha (m k)) last it = it + n.length := by
    apply scan_of_slice (f := fun c => !isTokenChar c || !isAlpha c) (by omega) ht
    · intro c hc
      have ha := halpha c hc
      simp [ha, isTokenChar_of_isAlpha ha]
    · intro c hc
      simp only [List.head?_cons, Option.some.injEq] at hc
      subst hc
      rfl
  simp only [parseMethod, hscan, hspace, hsp, hfirst, isTokenChar_sp]
  rw [if_neg (by simp), if_neg (by simp), if_neg (by omega), if_neg (by simp), if_neg (by omega)]

theorem parseTarget_of_text {g t : ByteString} (ht : slice m it last = g ++ sp :: t)
    (hg : g ≠ []) (hpath : ∀ c ∈ g, isPathchar c = true) (htail : t ≠ []) (ec : ErrorCode) :
    parseTarget m last it ec = ⟨it + g.length + 1, g, ec, .parseTargetFinished⟩ := by
  obtain ⟨hlast, hfirst, hsp⟩ := word_of_slice ht htail
  have hchar : isPathchar (m it) = true := by
    obtain ⟨c, g', rfl⟩ := List.exists_cons_of_ne_nil hg
    obtain ⟨-, hc, -⟩ := slice_eq_cons ht
    exact hc ▸ hpath c (by simp)
  have hscan : scan (fun k => !isPathchar (m k)) last it = it + g.length := by
    apply scan_of_slice (f := fun c => !isPathchar c) (by omega) ht
    · intro c hc
      simp [hpath c hc]
    · intro c hc
      simp only [List.head?_cons, Option.some.injEq] at hc
      subst hc
      rfl
  simp only [parseTarget, hscan, hchar, hsp, hfirst]
  rw [if_neg (by simp), if_neg (by omega), if_neg (by simp), if_neg (by omega)]

theorem matchLiteral_of_text {cs t : ByteString} (h : slice m it last = cs ++ t) :
    matchLiteral m cs it = (it + cs.length, true) := by
  induction cs generalizing it with
  | nil => rfl
  | cons c cs ih =>
    obtain ⟨-, hc, hrest⟩ := slice_eq_cons h
    rw [matchLiteral, if_neg (by simp [hc]), ih hrest]
    simp only [List.length_cons, Prod.mk.injEq, and_true]
    omega

theorem text_of_matchLiteral {cs : ByteString} (h : (matchLiteral m cs it).2 = true) :
    slice m it (it + cs.length) = cs ∧ (matchLiteral m cs it).1 = it + cs.length := by
  induction cs generalizing it with
  | nil => simp [matchLiteral]
  | cons c cs ih =>
    by_cases hc : m it = c
    · rw [matchLiteral, if_neg (by simp [hc])] at h ⊢
      obtain ⟨htext, hit⟩ := ih h
      have hl : it + (c :: cs).length = it + 1 + cs.length := by
        simp only [List.length_cons]
        omega
      rw [hl, slice_cons m (by omega), hc, htext]
      exact ⟨rfl, hit⟩
    · rw [matchLiteral, if_pos (by simpa using hc)] at h
      cases h

theorem parseProtocol_of_text {t : ByteString} (ht : slice m it last = ascii "HTTP/1.1" ++ t)
    (version : ℤ) (ec : ErrorCode) :
    parseProtocol m last it version ec = ⟨it + 8, 11, ec, .parseProtocolVersionFinished⟩ := by
  have hl := congrArg List.length ht
  simp only [length_slice, List.length_append, show (ascii "HTTP/1.1").length = 8 from rfl] at hl
  have hlit : matchLiteral m (ascii "HTTP/") it = (it + 5, true) :=
    matchLiteral_of_text (t := ascii "1.1" ++ t) ht
  have hrest : slice m (it + 5) last = 49 :: 46 :: 49 :: t :=
    (slice_eq_append (s := ascii "HTTP/") (t := ascii "1.1" ++ t) ht).2
  obtain ⟨-, h5, hrest⟩ := slice_eq_cons hrest
  obtain ⟨-, h6, hrest⟩ := slice_eq_cons hrest
  obtain ⟨-, h7, -⟩ := slice_eq_cons hrest
  have h6' : m (it + 5 + 1) = 46 := h6
  have h7' : m (it + 5 + 2) = 49 := h7
  have hdigit : isDigit 49 = true := by decide
  simp only [parseProtocol, hlit, h5, h6', h7', hdigit]
  rw [if_neg (by omega)]
  simp only [Bool.not_true, Bool.false_eq_true, if_false, ne_eq, not_true_eq_false]
  rfl

theorem parseRequestLine_of_text {s : Cursor} {n g u : ByteString} (hec : s.ec = none)
    (h : RequestLine (slice m s.it last) n g u) :
    parseRequestLine m last s =
      { s with
        parser := { s.parser with
          method := n
          target := g
          protocolVersion := 11
          parsePhase := .parseProtocolVersionFinished }
        it := last - u.length } := by
  obtain ⟨p, i, ec, ranges⟩ := s
  dsimp only at hec h ⊢
  subst hec
  obtain ⟨x, y, ht, ⟨hn, halpha⟩, ⟨hg, hpath⟩, hxy⟩ := h
  have hl := congrArg List.length ht
  simp only [length_slice, List.length_append, List.length_cons,
    show (ascii "HTTP/1.1").length = 8 from rfl] at hl
  have hmethod := parseMethod_of_text ht hn halpha (by simp) none
  have hmid := (slice_eq_cons (slice_eq_append ht).2).2.2
  have htarget := parseTarget_of_text hmid hg hpath (by simp [ascii]) none
  have hproto := (slice_eq_cons (slice_eq_append hmid).2).2.2
  have hprotocol := parseProtocol_of_text hproto p.protocolVersion none
  have hend := (slice_eq_append hproto).2
  obtain ⟨-, hx, hend⟩ := slice_eq_cons hend
  obtain ⟨-, hy, -⟩ := slice_eq_cons hend
  set e := i + n.length + 1 + g.length + 1 + 8 with he
  have hx' : m e = x := hx
  have hy' : m (e + 1) = y := hy
  have hline : ¬(m e ≠ cr ∧ m (e + 1) ≠ lf) := by
    rw [hx', hy']
    rcases hxy with h | h <;> simp [h]
  have hu : e + 2 = last - u.length := by omega
  simp only [parseRequestLine, hmethod, htarget, hprotocol, Option.isSome_none,
    Bool.false_eq_true, if_false, lt_irrefl, gt_iff_lt, decide_false, Bool.or_self]
  rw [if_neg (by omega), if_neg hline, hu]

theorem parseMethod_ec_none {ec : ErrorCode} (h : (parseMethod m last it ec).ec = none) :
    ∃ n t, slice m it last = n ++ sp :: t ∧ (n ≠ [] ∧ ∀ c ∈ n, isAlpha c = true) ∧ t ≠ [] ∧
      ec = none := by
  simp only [parseMethod] at h
  split_ifs at h with h1 h2 h3 h4 h5
  · set p := scan (fun k => !isTokenChar (m k) || !isAlpha (m k)) last it with hp
    have hip : it ≤ p := le_scan
    simp only [ge_iff_le, not_le] at h3
    simp only [ne_eq, not_not] at h4
    have hne : it ≠ p := by
      intro heq
      rw [← heq] at h4
      rw [h4] at h1
      exact h1 (by decide)
    obtain ⟨htext, hword, htail⟩ := slice_of_word (lt_of_le_of_ne hip hne) h3 h4
    refine ⟨slice m it p, slice m (p + 1) last, htext, ⟨hword, fun c hc => ?_⟩, htail, h⟩
    rw [hp] at hc
    obtain ⟨k, rfl, hstop⟩ := exists_not_stop_of_mem_slice_scan hc
    simp only [Bool.or_eq_false_iff, Bool.not_eq_false'] at hstop
    exact hstop.2

theorem parseTarget_ec_none {ec : ErrorCode} (h : (parseTarget m last it ec).ec = none) :
    ∃ g t, slice m it last = g ++ sp :: t ∧ (g ≠ [] ∧ ∀ c ∈ g, isPathchar c = true) ∧ t ≠ [] ∧
      ec = none := by
  simp only [parseTarget] at h
  split_ifs at h with h1 h3 h4 h5
  · set p := scan (fun k => !isPathchar (m k)) last it with hp
    have hip : it ≤ p := le_scan
    simp only [ge_iff_le, not_le] at h3
    simp only [ne_eq, not_not] at h4
    have hne : it ≠ p := by
      intro heq
      rw [← heq] at h4
      rw [h4] at h1
      exact h1 (by decide)
    obtain ⟨htext, hword, htail⟩ := slice_of_word (lt_of_le_of_ne hip hne) h3 h4
    refine ⟨slice m it p, slice m (p + 1) last, htext, ⟨hword, fun c hc => ?_⟩, htail, h⟩
    rw [hp] at hc
    obtain ⟨k, rfl, hstop⟩ := exists_not_stop_of_mem_slice_scan hc
    simp only [Bool.not_eq_false'] at hstop
    exact hstop

theorem parseProtocol_ec_none {version : ℤ} {ec : ErrorCode}
    (h : (parseProtocol m last it version ec).ec = none)
    (hv : (parseProtocol m last it version ec).version = 11) :
    ∃ t, slice m it last = ascii "HTTP/1.1" ++ t ∧ ec = none := by
  simp only [parseProtocol] at h hv
  split_ifs at h hv with h1 h2 h3 h4 h5
  · simp only [Bool.not_eq_true', Bool.not_eq_false] at h2 h3 h5
    simp only [ne_eq, not_not] at h4
    obtain ⟨htext, hit⟩ := text_of_matchLiteral h2
    have hlen : (ascii "HTTP/").length = 5 := rfl
    rw [hit, hlen] at h3 h4 h5 hv
    have h6 := toNat_of_isDigit h3
    have h7 := toNat_of_isDigit h5
    dsimp only at h hv
    have hd1 : m (it + 5) = 49 := by
      apply UInt8.toNat_inj.mp
      change _ = 49
      omega
    have hd2 : m (it + 5 + 2) = 49 := by
      apply UInt8.toNat_inj.mp
      change _ = 49
      omega
    refine ⟨slice m (it + 8) last, ?_, h⟩
    rw [hlen] at htext
    rw [← slice_append m (show it ≤ it + 5 by omega) (show it + 5 ≤ last by omega), htext,
      slice_cons m (by omega), hd1, slice_cons m (by omega), h4, slice_cons m (by omega)]
    rw [show it + 5 + 1 + 1 = it + 5 + 2 by omega, hd2]
    rfl

/-- A call that sets no error has read a request line. -/
theorem parseRequestLine_ec_none {s : Cursor} (h : (parseRequestLine m last s).ec = none) :
    ∃ n g u, RequestLine (slice m s.it last) n g u := by
  simp only [parseRequestLine] at h
  split_ifs at h with h1 h2 h3 h4 h5 h6
  · exact absurd h (Option.isSome_iff_ne_none.mp h1)
  · exact absurd h (Option.isSome_iff_ne_none.mp h2)
  · exact absurd h (Option.isSome_iff_ne_none.mp h3)
  · simp only [Bool.not_eq_true, Option.isSome_eq_false_iff, Option.isNone_iff_eq_none] at h1 h2
    obtain ⟨n, t, ht, ⟨hn, halpha⟩, htl, hec⟩ := parseMethod_ec_none h1
    have hmethod := parseMethod_of_text ht hn halpha htl s.ec
    rw [hmethod] at h2 h h4 h5 h6
    have hmid := (slice_eq_cons (slice_eq_append ht).2).2.2
    obtain ⟨g, t', ht', ⟨hg, hpath⟩, htl', -⟩ := parseTarget_ec_none h2
    have htarget := parseTarget_of_text ht' hg hpath htl' s.ec
    simp only [htarget] at h h4 h5 h6
    have hproto := (slice_eq_cons (slice_eq_append ht').2).2.2
    have hversion : (parseProtocol m last (s.it + n.length + 1 + g.length + 1)
        s.parser.protocolVersion s.ec).version = 11 := by
      simp only [gt_iff_lt, Bool.or_eq_true, decide_eq_true_eq, not_or, not_lt] at h4
      omega
    obtain ⟨t'', ht'', -⟩ := parseProtocol_ec_none h hversion
    have hprotocol := parseProtocol_of_text ht'' s.parser.protocolVersion s.ec
    simp only [hprotocol] at h5 h6
    set e := s.it + n.length + 1 + g.length + 1 + 8 with he
    have hend : slice m e last = t'' := (slice_eq_append ht'').2
    rw [slice_cons m (by omega), slice_cons m (by omega)] at hend
    refine ⟨n, g, slice m (e + 1 + 1) last, m e, m (e + 1), ?_, ⟨hn, halpha⟩, ⟨hg, hpath⟩, ?_⟩
    · rw [ht, ← hmid, ht', ← hproto, ht'', ← hend]
    · by_contra hxy
      exact h6 (by simpa [not_or] using hxy)

/-- The request line touches neither the headers nor the upload, and leaves a phase
in which later calls do nothing. -/
theorem parseRequestLine_frame {s : Cursor} (hec : s.ec = none) :
    ∃ phase n g v, ParsePhase.dead phase ∧ (parseRequestLine m last s).ranges = s.ranges ∧
      (parseRequestLine m last s).parser =
        { s.parser with parsePhase := phase, method := n, target := g, protocolVersion := v } := by
  have hm : (parseMethod m last s.it s.ec).ec ≠ none →
      (parseMethod m last s.it s.ec).phase = .parseMethod := by
    simp only [parseMethod]
    split_ifs <;> simp [hec]
  have ht : ∀ i, (parseTarget m last i none).ec ≠ none →
      (parseTarget m last i none).phase = .parseTarget := by
    intro i
    simp only [parseTarget]
    split_ifs <;> simp
  have hp : ∀ i v, (parseProtocol m last i v none).phase = .parseProtocolVersion ∨
      (parseProtocol m last i v none).phase = .parseProtocolVersionFinished := by
    intro i v
    simp only [parseProtocol]
    split_ifs <;> simp
  simp only [parseRequestLine]
  by_cases h1 : (parseMethod m last s.it s.ec).ec.isSome
  · rw [if_pos h1]
    exact ⟨_, _, _, _, Or.inl (hm (Option.isSome_iff_ne_none.mp h1)), rfl, rfl⟩
  · rw [if_neg h1]
    simp only [Bool.not_eq_true, Option.isSome_eq_false_iff, Option.isNone_iff_eq_none] at h1
    rw [h1]
    by_cases h2 : (parseTarget m last (parseMethod m last s.it s.ec).it none).ec.isSome
    · rw [if_pos h2]
      exact ⟨_, _, _, _, Or.inr (Or.inl (ht _ (Option.isSome_iff_ne_none.mp h2))), rfl, rfl⟩
    · rw [if_neg h2]
      simp only [Bool.not_eq_true, Option.isSome_eq_false_iff, Option.isNone_iff_eq_none] at h2
      rw [h2]
      split_ifs
      all_goals exact ⟨_, _, _, _, Or.inr (Or.inr (hp _ _)), rfl, rfl⟩

end Webcrown.Http
