import Mathlib

/-!
# Lines

A list in lines, each of which is ended by two elements `a` and `b`.
-/

namespace Webcrown.Bytes

variable {α : Type*} {a b : α} {w x y : List α}

/-- No line ends within the list. -/
def OneLine (a b : α) (w : List α) : Prop := ¬ [a, b] <:+: w

theorem OneLine.of_infix (h : OneLine a b w) (hx : x <:+: w) : OneLine a b x :=
  fun hin => h (hin.trans hx)

theorem oneLine_of_notMem (h : a ∉ w) : OneLine a b w :=
  fun hin => h (hin.subset List.mem_cons_self)

theorem oneLine_iff_isChain : OneLine a b w ↔ w.IsChain fun c d => ¬(c = a ∧ d = b) := by
  rw [List.isChain_iff_forall_rel_of_append_cons_cons, OneLine]
  constructor
  · rintro h c d l₁ l₂ rfl ⟨rfl, rfl⟩
    exact h ⟨l₁, l₂, by simp⟩
  · rintro h ⟨l₁, l₂, rfl⟩
    have hmiddle : l₁ ++ [a, b] ++ l₂ = l₁ ++ a :: b :: l₂ := by simp
    exact h hmiddle ⟨rfl, rfl⟩

theorem OneLine.append_cons {c : α} (hx : OneLine a b x) (hy : OneLine a b y) (ha : c ≠ a)
    (hb : c ≠ b) : OneLine a b (x ++ c :: y) := by
  rw [oneLine_iff_isChain] at hx hy ⊢
  rw [List.isChain_append]
  refine ⟨hx, ?_, fun d _ e he hend => ?_⟩
  · rw [List.isChain_cons]
    exact ⟨fun e _ hend => ha hend.1, hy⟩
  · obtain rfl : c = e := by simpa using he
    exact hb hend.2

variable [DecidableEq α]

instance : DecidablePred (OneLine a b) := fun w =>
  inferInstanceAs (Decidable (¬ [a, b] <:+: w))

/-- The lines of a list, with what has been read of the first one. -/
def linesFrom (a b : α) (line : List α) : List α → List (List α)
  | [] => [line]
  | [c] => [line ++ [c]]
  | c :: d :: s =>
    if c = a ∧ d = b then line :: linesFrom a b [] s else linesFrom a b (line ++ [c]) (d :: s)

/-- The lines of a list. What stands behind the last end of a line is one more. -/
def lines (a b : α) (s : List α) : List (List α) := linesFrom a b [] s

theorem linesFrom_append (hab : a ≠ b) (h : OneLine a b w) (line t : List α) :
    linesFrom a b line (w ++ a :: b :: t) = (line ++ w) :: lines a b t := by
  induction w generalizing line with
  | nil => simp [linesFrom, lines]
  | cons c w ih =>
    have hnot : ¬(c = a ∧ (w ++ a :: b :: t).head? = some b) := by
      rintro ⟨rfl, hhead⟩
      cases w with
      | nil => exact hab (by simpa using hhead)
      | cons d w =>
        obtain rfl : d = b := by simpa using hhead
        exact h ⟨[], w, rfl⟩
    have hrest := ih (h.of_infix ⟨[c], [], by simp⟩) (line ++ [c])
    cases hs : w ++ a :: b :: t with
    | nil => simp at hs
    | cons d s =>
      rw [hs] at hrest hnot
      rw [List.cons_append, hs, linesFrom, if_neg (by simpa using hnot), hrest, List.append_assoc]
      rfl

theorem lines_append (hab : a ≠ b) (h : OneLine a b w) (t : List α) :
    lines a b (w ++ a :: b :: t) = w :: lines a b t :=
  linesFrom_append hab h [] t

theorem lines_flatten (hab : a ≠ b) {ws : List (List α)} (h : ∀ w ∈ ws, OneLine a b w)
    (t : List α) :
    lines a b ((ws.map fun w => w ++ [a, b]).flatten ++ t) = ws ++ lines a b t := by
  induction ws with
  | nil => rfl
  | cons w ws ih =>
    obtain ⟨hw, hws⟩ := List.forall_mem_cons.mp h
    rw [List.map_cons, List.flatten_cons, List.append_assoc, List.append_assoc]
    exact (lines_append hab hw _).trans (congrArg (w :: ·) (ih hws))

end Webcrown.Bytes
