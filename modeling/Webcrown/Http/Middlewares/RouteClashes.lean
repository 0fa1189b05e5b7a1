import Webcrown.Http.Middlewares.RouteHistories

/-!
# Exceptions of the matcher

The position that `replace` is called with is one before an occurrence of a
parameter's name. It leaves the string when the name stands at the very beginning,
which the pattern, a name that starts with a slash, or a value written over the
beginning can bring about.
-/

namespace Webcrown.Http

open Common

namespace Route

/-- A request with whose values, written over the keys one after the other, the text of the
pattern begins with the name of the parameter whose turn it is. -/
def Clashes (r : Route) (target : ByteString) (method : HttpMethod) : Prop :=
  ∃ rest, r.Binds target method rest ∧
    ∃ before p after, r.pathParameters = before ++ p :: after ∧
      p.name <+: written r.path
        ((before.map RouteParameter.name).zip (segments before.length rest))

/-- Matching returns a verdict on exactly the requests without a clash. -/
theorem returns_iff (r : Route) (target : ByteString) (method : HttpMethod) :
    (∃ verdict, (r.isMatchWithTargetRequest target method).1 = .ok verdict) ↔
      ¬ r.Clashes target method := by
  by_cases hbinds : ∃ rest, r.Binds target method rest
  · obtain ⟨rest, hbinds⟩ := hbinds
    have hle : r.uriTarget.length + 1 ≤ target.length := by
      rw [hbinds.target_eq]
      simp
    have hdrop : target.drop (r.uriTarget.length + 1) = rest := by
      rw [hbinds.target_eq, ← List.drop_drop, List.drop_left]
      rfl
    have hthrow := (bindValues_verdict r.pathParameters r.path hle).1
    rw [hdrop] at hthrow
    have hclash : r.Clashes target method ↔
        (bindValues target r.pathParameters (r.uriTarget.length + 1) r.path).1 =
          .error .outOfRange := by
      rw [hthrow]
      constructor
      · rintro ⟨rest', hbinds', hclash⟩
        have hrest := hbinds'.target_eq.symm.trans hbinds.target_eq
        obtain ⟨-, rfl⟩ := List.cons.inj (List.append_cancel_left hrest)
        exact hclash
      · exact fun hclash => ⟨rest, hbinds, hclash⟩
    rw [hclash, isMatch_of_binds hbinds]
    dsimp only
    cases (bindValues target r.pathParameters (r.uriTarget.length + 1) r.path).1 with
    | error e => simp [Except.map]
    | ok full => simp [Except.map]
  · obtain ⟨verdict, hcall⟩ := isMatch_of_not_binds fun rest h => hbinds ⟨rest, h⟩
    rw [hcall]
    exact iff_of_true ⟨verdict, rfl⟩ fun ⟨rest, h, _⟩ => hbinds ⟨rest, h⟩

/-- The value of the first parameter, written over the beginning of the path, is the name
of the second one. -/
theorem ab_throws :
    ¬ ∀ (path : ByteString) (method : HttpMethod) (r : Route), Route.make method path = .ok r →
      (∀ p ∈ r.pathParameters, p.name ≠ []) →
      ∀ h target method', ∃ verdict,
        ((r.after h).isMatchWithTargetRequest target method').1 = .ok verdict := by
  intro hall
  obtain ⟨r, hr⟩ : ∃ r, Route.make .get (ascii "/a/:a/:b") = .ok r := ⟨_, rfl⟩
  have hnames : ∀ p ∈ r.pathParameters, p.name ≠ [] := by
    cases hr
    decide +kernel
  obtain ⟨verdict, hv⟩ := hall _ _ r hr hnames [] (ascii "/a/b/c") .get
  have hthrow : (r.isMatchWithTargetRequest (ascii "/a/b/c") .get).1 = .error .outOfRange := by
    cases hr
    decide +kernel
  rw [after, List.foldl_nil, hthrow] at hv
  cases hv

end Route

end Webcrown.Http
