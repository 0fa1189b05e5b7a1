import Webcrown.Http.CallSpecs

/-!
# Collecting an upload

While an upload waits for more, the chunks without its boundary are appended to what
has been collected, one call each, until `Content-Length` bytes are there.
-/

namespace Webcrown.Http

open Bytes Common

/-- No boundary starts in the chunk, which is not empty. -/
def Chunk.FreeOf (c : Chunk) (b : ByteString) : Prop :=
  c.bytes ≠ [] ∧ ∀ k < c.size, ¬ HoldsAt c.memory b k

/-- A parser that waits for the rest of an upload of `limit` bytes. -/
structure Collecting (p : Parser) (limit : ℕ) : Prop where
  phase : p.parsePhase = .parseMediaTypeNeedMore
  boundary_ne : p.boundaryValue ≠ []
  boundary_head : p.boundaryValue.head? ≠ some dash
  boundary_length : p.boundaryValueLength = p.boundaryValue.length
  readed : p.bufferSizeReaded = p.multipartBuffer.length
  contentLength : ∃ v, p.headers.lookup (ascii "content-length") = some v ∧ atoi v = limit
  limit_lt : limit < 2 ^ 31

/-- What the call that makes `got` of the buffer leaves and returns. -/
structure Collects (p : Parser) (limit : ℕ) (got : ByteString) (r : CallResult) : Prop where
  buffer : r.parser.multipartBuffer = got
  readed : r.parser.bufferSizeReaded = got.length
  ec : r.ec = none
  waits : got.length < limit → r.request = none
  returns : limit ≤ got.length →
    ∃ req, r.request = some req ∧ req.uploads = p.uploads ++ [⟨got, p.uploadBodyHeaders⟩]

/-- The collecting parser with `got` in its buffer. -/
def Parser.withBuffer (p : Parser) (got : ByteString) : Parser :=
  { p with bufferSizeReaded := got.length, multipartBuffer := got }

theorem scanUpload_of_free {m : ℕ → UInt8} {last : ℕ} {b : ByteString}
    (hdash : b.head? ≠ some dash) (hfree : ∀ k < last, ¬ HoldsAt m b k) :
    scanUpload m last 0 b.length b = ⟨last, last, false⟩ := by
  have hscan : verifyBoundaryValue m last 0 b.length b = last := by
    rw [verifyBoundaryValue_eq m last 0 le_rfl hdash, List.take_length]
    exact scan_eq_last (Nat.zero_le last) fun k _ hk => decide_eq_false (hfree k hk)
  simp [scanUpload, hscan]

namespace Collecting

variable {p : Parser} {limit : ℕ} {c : Chunk}

theorem withBuffer (h : Collecting p limit) (got : ByteString) :
    Collecting (p.withBuffer got) limit :=
  ⟨h.phase, h.boundary_ne, h.boundary_head, h.boundary_length, rfl, h.contentLength, h.limit_lt⟩

theorem call (h : Collecting p limit) (hc : c.FreeOf p.boundaryValue)
    (hfit : (p.multipartBuffer ++ c.bytes).length ≤ maxSize) :
    ∃ r, p.call c = .ok r ∧ Collects p limit (p.multipartBuffer ++ c.bytes) r ∧
      ((p.multipartBuffer ++ c.bytes).length < limit →
        r.parser = p.withBuffer (p.multipartBuffer ++ c.bytes)) := by
  obtain ⟨v, hv, hlimit⟩ := h.contentLength
  have hscan := scanUpload_of_free h.boundary_head hc.2
  rw [← h.boundary_length] at hscan
  have hpos : 0 ≠ c.size := (List.length_pos_iff.mpr hc.1).ne
  have hreaded : sizeT ((p.bufferSizeReaded : ℤ) + ((c.size : ℤ) - ((0 : ℕ) : ℤ))) =
      (p.multipartBuffer ++ c.bytes).length := by
    rw [← sizeT_natCast hfit, h.readed, List.length_append, Chunk.size]
    congr 1
  have hsize : sizeT (atoi v) = limit := by
    have hlt := h.limit_lt
    rw [hlimit, sizeT_natCast (by unfold maxSize; omega)]
  rw [Parser.call_needMore_eq h.phase]
  simp only [parseMediaTypeMore, hv, if_neg hpos, hscan, hreaded, hsize, Chunk.slice_memory]
  rw [if_neg (by omega)]
  by_cases hmore : (p.multipartBuffer ++ c.bytes).length < limit
  · rw [if_pos (by simp only [Bool.not_false, Bool.true_and, decide_eq_true_eq]; exact hmore)]
    refine ⟨_, rfl, ⟨rfl, rfl, rfl, fun _ => rfl, fun hle => absurd hmore (by omega)⟩, ?_⟩
    intro _
    simp [finishMedia, Parser.withBuffer, h.phase]
  · rw [if_neg (by simp only [Bool.not_false, Bool.true_and, decide_eq_true_eq]; exact hmore)]
    exact ⟨_, rfl, ⟨rfl, rfl, rfl, fun hlt => absurd hlt hmore, fun _ => ⟨_, rfl, rfl⟩⟩,
      fun hlt => absurd hlt hmore⟩

end Collecting

/-- The chunks without a boundary are collected call by call, without an error and without a
request while fewer than `Content-Length` bytes are there, and the call that reaches them
returns the upload. All bytes together fit a vector, or `reserve` would throw. -/
theorem upload_grows {p : Parser} {limit : ℕ} (h : Collecting p limit) (cs : List Chunk)
    (hfree : ∀ c ∈ cs, c.FreeOf p.boundaryValue)
    (hfit : (p.multipartBuffer ++ (cs.map Chunk.bytes).flatten).length ≤ maxSize)
    (hopen : ∀ ds, ds ≠ [] → ds <+: cs → ds ≠ cs →
      (p.multipartBuffer ++ (ds.map Chunk.bytes).flatten).length < limit) :
    ∃ calls q, Run p calls q ∧ calls.map Call.chunk = cs ∧
      ∀ before c after, calls = before ++ c :: after →
        Collects p limit (p.multipartBuffer ++
          (before.map (fun d => d.chunk.bytes)).flatten ++ c.chunk.bytes) c.result := by
  induction cs generalizing p with
  | nil =>
    refine ⟨[], p, Run.nil p, rfl, ?_⟩
    intro before c after hcalls
    simp at hcalls
  | cons c cs ih =>
    simp only [List.map_cons, List.flatten_cons, ← List.append_assoc] at hfit
    have hfit' : (p.multipartBuffer ++ c.bytes).length ≤ maxSize := by
      rw [List.length_append] at hfit
      exact (Nat.le_add_right _ _).trans hfit
    obtain ⟨r, hr, hcollects, hnext⟩ := h.call (hfree c (by simp)) hfit'
    rcases eq_or_ne cs [] with rfl | hne
    · refine ⟨[⟨p, c, r, hr⟩], r.parser, Run.cons (c := ⟨p, c, r, hr⟩) (Run.nil _), rfl, ?_⟩
      intro before d after hcalls
      obtain ⟨rfl, rfl, rfl⟩ : before = [] ∧ d = ⟨p, c, r, hr⟩ ∧ after = [] := by
        cases before with
        | nil => simpa [eq_comm] using hcalls
        | cons _ _ => simp at hcalls
      simpa using hcollects
    · have hmore : (p.multipartBuffer ++ c.bytes).length < limit := by
        have := hopen [c] (by simp) ⟨cs, rfl⟩ (by simpa using hne.symm)
        simpa using this
      have hbuffer : r.parser.multipartBuffer = p.multipartBuffer ++ c.bytes := hcollects.buffer
      have hparser := hnext hmore
      obtain ⟨calls, q, hrun, hchunks, hall⟩ := @ih r.parser (hparser ▸ h.withBuffer _)
        (fun d hd => by rw [hparser]; exact hfree d (by simp [hd])) (by rw [hbuffer]; exact hfit)
        (by
          intro ds hds hprefix hproper
          have := hopen (c :: ds) (by simp) (List.cons_prefix_cons.mpr ⟨rfl, hprefix⟩)
            (by simpa using hproper)
          rw [hbuffer]
          simpa using this)
      refine ⟨⟨p, c, r, hr⟩ :: calls, q, Run.cons (c := ⟨p, c, r, hr⟩) hrun, by simp [hchunks], ?_⟩
      intro before d after hcalls
      cases before with
      | nil =>
        obtain ⟨rfl, -⟩ := List.cons.inj hcalls
        simpa using hcollects
      | cons e before =>
        obtain ⟨rfl, hrest⟩ := List.cons.inj hcalls
        have hd := hall before d after hrest
        rw [hbuffer, hparser] at hd
        obtain ⟨h1, h2, h3, h4, h5⟩ := hd
        simp only [List.map_cons, List.flatten_cons, ← List.append_assoc] at h1 h2 h4 h5 ⊢
        exact ⟨h1, h2, h3, h4, h5⟩

section ThreeBytes

def threeBytesParser : Parser :=
  { Parser.fresh .imageJpeg with
    parsePhase := .parseMediaTypeNeedMore
    headers := Headers.insertNew ∅ (ascii "content-length") (ascii "3")
    boundaryValue := ascii "b"
    boundaryValueLength := 1 }

def twoBytesChunk : Chunk := ⟨ascii "xy", fun _ => 0, by decide +kernel⟩

def lastByteChunk : Chunk := ⟨ascii "z", fun _ => 0, by decide +kernel⟩

theorem upload_grows_threeBytes :
    ∃ calls q, Run threeBytesParser calls q ∧
      calls.map Call.chunk = [twoBytesChunk, lastByteChunk] ∧
      ∀ before c after, calls = before ++ c :: after →
        Collects threeBytesParser 3 (threeBytesParser.multipartBuffer ++
          (before.map (fun d => d.chunk.bytes)).flatten ++ c.chunk.bytes) c.result := by
  refine upload_grows ?_ _ ?_ (by decide +kernel) ?_
  · exact ⟨rfl, by decide +kernel, by decide +kernel, rfl, rfl,
      ⟨ascii "3", by decide +kernel, by decide +kernel⟩, by decide⟩
  · intro c hc
    simp only [List.mem_cons, List.not_mem_nil, or_false] at hc
    rcases hc with rfl | rfl
    · exact ⟨by decide +kernel, by decide +kernel⟩
    · exact ⟨by decide +kernel, by decide +kernel⟩
  · intro ds hne hprefix hproper
    rcases List.prefix_cons_iff.mp hprefix with rfl | ⟨es, rfl, hes⟩
    · exact absurd rfl hne
    · rcases List.prefix_cons_iff.mp hes with rfl | ⟨fs, rfl, hfs⟩
      · decide +kernel
      · exact absurd (by rw [List.prefix_nil.mp hfs]) hproper

end ThreeBytes

end Webcrown.Http
