import Webcrown.Http.Calls
import Webcrown.Http.RequestLine

/-!
# Line ends of the request line

What a call has read when it comes to the header block. The two bytes behind the
version are tested with `&&` where the error needs `||`, so a line passes whose end
is only half a CR LF.
-/

namespace Webcrown.Http

open Bytes Common

/-- A method, a target, the version, and two bytes where the line should end. -/
structure LineText (t n g : ByteString) (x y : UInt8) (u : ByteString) : Prop where
  text : t = n ++ sp :: (g ++ sp :: (ascii "HTTP/1.1" ++ x :: y :: u))
  method : n ≠ [] ∧ ∀ c ∈ n, isAlpha c = true
  target : g ≠ [] ∧ ∀ c ∈ g, isPathchar c = true

theorem LineText.requestLine {t n g u : ByteString} {x y : UInt8} (h : LineText t n g x y u)
    (hxy : x = cr ∨ y = lf) : RequestLine t n g u :=
  ⟨x, y, h.text, h.method, h.target, hxy⟩

theorem LineText.unique {t n g u n' g' u' : ByteString} {x y x' y' : UInt8}
    (h : LineText t n g x y u) (h' : LineText t n' g' x' y' u') :
    n = n' ∧ g = g' ∧ x = x' ∧ y = y' ∧ u = u' := by
  have htext := h.text.symm.trans h'.text
  obtain ⟨hn, hrest⟩ := token_unique h.method.2 h'.method.2 (by decide) htext
  obtain ⟨hg, htail⟩ := token_unique h.target.2 h'.target.2 (by decide) hrest
  replace htail := List.append_cancel_left htail
  simp only [List.cons.injEq] at htail
  exact ⟨hn, hg, htail⟩

def startCursor (t : ContentType) : Cursor :=
  ⟨{ Parser.fresh t with parsePhase := .parseStartLineStarted }, 0, none, []⟩

/-- What a request line is when it is read as such: it ends in CR LF, its method and its
target are stored, and the iterator stands behind it. -/
def ReadsLine (text : ByteString) (s : Cursor) : Prop :=
  ∃ n g u, LineText text n g cr lf u ∧ s.parser.method = n ∧ s.parser.target = g ∧
    s.it + u.length = text.length

/-- A line end of which one byte is right and the other one is not. -/
def HalfLineEnd (text : ByteString) : Prop :=
  ∃ n g x y u, LineText text n g x y u ∧ (x = cr ↔ y ≠ lf)

section StartLine

variable {t : ContentType} {c : Chunk}

theorem parseRequestLine_startCursor {n g u : ByteString} (h : RequestLine c.bytes n g u) :
    (parseRequestLine c.memory c.size (startCursor t)).ec = none ∧
      (parseRequestLine c.memory c.size (startCursor t)).parser.method = n ∧
      (parseRequestLine c.memory c.size (startCursor t)).parser.target = g ∧
      (parseRequestLine c.memory c.size (startCursor t)).it + u.length = c.bytes.length := by
  obtain ⟨s, hs, -⟩ := h.rest
  have hle : u.length ≤ c.size := by
    rw [Chunk.size, hs, List.length_append]
    exact Nat.le_add_left _ _
  rw [parseRequestLine_of_text (s := startCursor t) rfl (c.slice_memory.symm ▸ h)]
  exact ⟨rfl, rfl, rfl, Nat.sub_add_cancel hle⟩

theorem requestLine_of_ec_none
    (h : (parseRequestLine c.memory c.size (startCursor t)).ec = none) :
    ∃ n g u, RequestLine c.bytes n g u := by
  have hline := parseRequestLine_ec_none h
  rwa [show (startCursor t).it = 0 from rfl, c.slice_memory] at hline

/-- `parse_start_line` comes to the header block only behind a whole request line, exactly
on the buffers that do not begin with a line whose end is half a CR LF. -/
theorem reads_whole_line_iff (t : ContentType) (c : Chunk) :
    ((parseRequestLine c.memory c.size (startCursor t)).ec = none →
      ReadsLine c.bytes (parseRequestLine c.memory c.size (startCursor t))) ↔
    ¬ HalfLineEnd c.bytes := by
  constructor
  · rintro hreads ⟨n, g, x, y, u, hline, hhalf⟩
    have hxy : x = cr ∨ y = lf := by
      by_cases hx : x = cr
      · exact Or.inl hx
      · exact Or.inr (not_not.mp fun hy => hx (hhalf.mpr hy))
    obtain ⟨hec, -⟩ := parseRequestLine_startCursor (t := t) (hline.requestLine hxy)
    obtain ⟨n', g', u', hwhole, -⟩ := hreads hec
    obtain ⟨-, -, hx, hy, -⟩ := hline.unique hwhole
    exact hhalf.mp hx hy
  · intro hhalf hec
    obtain ⟨n, g, u, hline⟩ := requestLine_of_ec_none hec
    obtain ⟨-, hmethod, htarget, hit⟩ := parseRequestLine_startCursor (t := t) hline
    obtain ⟨x, y, htext, hn, hg, hxy⟩ := hline
    have hends : x = cr ∧ y = lf := by
      by_contra hne
      refine hhalf ⟨n, g, x, y, u, ⟨htext, hn, hg⟩, ?_⟩
      rcases hxy with rfl | rfl
      · simpa using hne
      · simpa using hne
    obtain ⟨rfl, rfl⟩ := hends
    exact ⟨n, g, u, ⟨htext, hn, hg⟩, hmethod, htarget, hit⟩

end StartLine

def halfLineChunk : Chunk where
  bytes := ascii "GET / HTTP/1.1\rXHost: a\r\n\r\n"
  stale := fun _ => 0
  size_le := by decide +kernel

theorem halfLineChunk_reads_no_line :
    ¬ ∀ (t : ContentType) (c : Chunk),
      (parseRequestLine c.memory c.size (startCursor t)).ec = none →
        ReadsLine c.bytes (parseRequestLine c.memory c.size (startCursor t)) := by
  intro hall
  have htext : LineText halfLineChunk.bytes (ascii "GET") (ascii "/") cr 88
      (ascii "Host: a\r\n\r\n") :=
    ⟨by decide +kernel, by decide +kernel, by decide +kernel⟩
  obtain ⟨hec, -⟩ := parseRequestLine_startCursor (t := .unknown)
    (htext.requestLine (Or.inl rfl))
  obtain ⟨n, g, u, hline, -⟩ := hall .unknown halfLineChunk hec
  obtain ⟨-, -, -, hy, -⟩ := htext.unique hline
  exact absurd hy (by decide)

end Webcrown.Http
