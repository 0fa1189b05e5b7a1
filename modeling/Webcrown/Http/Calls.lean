import Webcrown.Http.Parser

/-!
# Sequences of `parse` calls

A session feeds its parser one chunk after the other from a receive buffer it
reuses: `Chunk` is the bytes of one read together with what the buffer holds
behind them. A run starts from a fresh parser; an exception ends it, since it
leaves the I/O thread.
-/

namespace Webcrown.Http

open Bytes Common

/-- The bytes of one read, and the contents of the buffer from their end on.
No object is larger than `PTRDIFF_MAX`. -/
structure Chunk where
  bytes : ByteString
  stale : ℕ → UInt8
  size_le : bytes.length ≤ maxSize

namespace Chunk

def size (c : Chunk) : ℕ := c.bytes.length

def memory (c : Chunk) (k : ℕ) : UInt8 := c.bytes[k]?.getD (c.stale k)

theorem memory_of_lt (c : Chunk) {k : ℕ} (h : k < c.bytes.length) : c.memory k = c.bytes[k] := by
  simp [memory, h]

theorem memory_of_le (c : Chunk) {k : ℕ} (h : c.size ≤ k) : c.memory k = c.stale k := by
  simp [memory, List.getElem?_eq_none (show c.bytes.length ≤ k from h)]

@[simp] theorem slice_memory (c : Chunk) : slice c.memory 0 c.size = c.bytes := by
  apply List.ext_getElem (by simp [size])
  intro k hk hk'
  rw [getElem_slice, Nat.zero_add, c.memory_of_lt hk']

end Chunk

/-- `parser_.parse(buffer, size, ec)` with a clear error code, as `on_receive` calls it. -/
def Parser.call (p : Parser) (c : Chunk) : Except LengthError CallResult :=
  parse p c.memory c.size none

/-- One call that returned, from the parser it found to what it left. -/
structure Call where
  before : Parser
  chunk : Chunk
  result : CallResult
  returned : before.call chunk = .ok result

def Call.of (p : Parser) (c : Chunk) (h : (p.call c).toOption.isSome = true) : Call where
  before := p
  chunk := c
  result := (p.call c).toOption.get h
  returned := by
    have hr : (p.call c).toOption = some ((p.call c).toOption.get h) := (Option.some_get h).symm
    generalize (p.call c).toOption.get h = r at hr
    cases hc : p.call c with
    | error e =>
      rw [hc] at hr
      cases hr
    | ok r' =>
      rw [hc] at hr
      cases hr
      rfl

/-- `Run p cs q`: the calls `cs`, each on the parser the one before it left, lead
from `p` to `q`. -/
inductive Run : Parser → List Call → Parser → Prop
  | nil (p) : Run p [] p
  | cons {c : Call} {cs : List Call} {q : Parser} :
      Run c.result.parser cs q → Run c.before (c :: cs) q

theorem Run.snoc {p q : Parser} {cs : List Call} {c : Call} (h : Run p cs q)
    (hc : c.before = q) : Run p (cs ++ [c]) c.result.parser := by
  induction h with
  | nil p => exact hc ▸ Run.cons (Run.nil _)
  | cons _ ih => exact Run.cons (ih hc)

theorem Run.append {p q r : Parser} {cs ds : List Call} (h : Run p cs q) (h' : Run q ds r) :
    Run p (cs ++ ds) r := by
  induction h with
  | nil => exact h'
  | cons _ ih => exact Run.cons (ih h')

theorem Run.split {p r : Parser} {cs ds : List Call} (h : Run p (cs ++ ds) r) :
    ∃ q, Run p cs q ∧ Run q ds r := by
  induction cs generalizing p with
  | nil => exact ⟨p, Run.nil p, h⟩
  | cons c cs ih =>
    cases h with
    | cons h =>
      obtain ⟨q, hq, hr⟩ := ih h
      exact ⟨q, Run.cons hq, hr⟩

theorem Run.at_call {p r : Parser} {cs ds : List Call} {c : Call} (h : Run p (cs ++ c :: ds) r) :
    Run p cs c.before ∧ Run c.result.parser ds r := by
  obtain ⟨q, hq, hr⟩ := h.split
  cases hr with
  | cons hr => exact ⟨hq, hr⟩

theorem Run.invariant {I : Parser → Prop} {p q : Parser} {cs : List Call} (h : Run p cs q)
    (hp : I p) (hstep : ∀ c ∈ cs, I c.before → I c.result.parser) : I q := by
  induction h with
  | nil => exact hp
  | cons _ ih =>
    exact ih (hstep _ (by simp) hp) fun c hc => hstep c (by simp [hc])

/-- A state some run of calls on a fresh parser reaches. -/
def Reachable (p : Parser) : Prop :=
  ∃ t cs, Run (Parser.fresh t) cs p

theorem reachable_fresh (t : ContentType) : Reachable (Parser.fresh t) :=
  ⟨t, [], Run.nil _⟩

theorem Reachable.call {p : Parser} {c : Chunk} {r : CallResult} (h : Reachable p)
    (hr : p.call c = .ok r) : Reachable r.parser := by
  obtain ⟨t, cs, hrun⟩ := h
  exact ⟨t, _, hrun.snoc (c := ⟨p, c, r, hr⟩) rfl⟩

/-- A property of fresh parsers that every returning call preserves holds in every
reachable state. -/
theorem Reachable.invariant {I : Parser → Prop} {p : Parser} (h : Reachable p)
    (hfresh : ∀ t, I (Parser.fresh t))
    (hstep : ∀ p c r, I p → Parser.call p c = .ok r → I r.parser) : I p := by
  obtain ⟨t, cs, hrun⟩ := h
  exact hrun.invariant (hfresh t) fun c _ hc => hstep _ _ _ hc c.returned

end Webcrown.Http
