import Mathlib

/-!
# Runs of a system with events

A system is a partial function from a state and an event to the next state; an event
that is not possible in a state has no next state. A run keeps every transition it
takes, so that conditions on single steps and properties of all states that a run
passes can be stated of the list of its transitions.
-/

namespace Webcrown.Transitions

variable {σ ε : Type*}

structure Transition (σ ε : Type*) where
  before : σ
  event : ε
  after : σ

/-- A transition of a system as its component `f` sees it: not at all, or as an event of the
component's own system. -/
def Transition.ShowsAs {τ δ : Type*} (next' : τ → δ → Option τ) (f : σ → τ)
    (tr : Transition σ ε) : Option δ → Prop
  | none => f tr.after = f tr.before
  | some d => next' (f tr.before) d = some (f tr.after)

/-- `Run next s ts t`: the transitions `ts` lead from `s` to `t`. -/
inductive Run (next : σ → ε → Option σ) : σ → List (Transition σ ε) → σ → Prop
  | nil (s : σ) : Run next s [] s
  | cons {s t u : σ} {e : ε} {ts : List (Transition σ ε)} :
      next s e = some t → Run next t ts u → Run next s (⟨s, e, t⟩ :: ts) u

/-- The transitions that a list of events causes, and the state they lead to. -/
def exec (next : σ → ε → Option σ) (s : σ) : List ε → Option (List (Transition σ ε) × σ)
  | [] => some ([], s)
  | e :: es =>
    match next s e with
    | none => none
    | some t => (exec next t es).map fun r => (⟨s, e, t⟩ :: r.1, r.2)

namespace Run

variable {next : σ → ε → Option σ} {s t u : σ} {ts ts' : List (Transition σ ε)}

theorem append (h : Run next s ts t) (h' : Run next t ts' u) : Run next s (ts ++ ts') u := by
  induction h with
  | nil => exact h'
  | cons hstep _ ih => exact cons hstep (ih h')

theorem split (h : Run next s (ts ++ ts') u) : ∃ t, Run next s ts t ∧ Run next t ts' u := by
  induction ts generalizing s with
  | nil => exact ⟨s, nil s, h⟩
  | cons tr ts ih =>
    cases h with
    | cons hstep h =>
      obtain ⟨t, ht, hu⟩ := ih h
      exact ⟨t, cons hstep ht, hu⟩

theorem of_exec {es : List ε} (h : exec next s es = some (ts, t)) :
    Run next s ts t ∧ ts.map Transition.event = es := by
  induction es generalizing s ts with
  | nil =>
    obtain ⟨rfl, rfl⟩ := Prod.mk.inj (Option.some.inj h)
    exact ⟨nil s, rfl⟩
  | cons e es ih =>
    rw [exec] at h
    cases hnext : next s e with
    | none =>
      rw [hnext] at h
      cases h
    | some u =>
      rw [hnext] at h
      obtain ⟨r, hr, heq⟩ := Option.map_eq_some_iff.mp h
      obtain ⟨rfl, rfl⟩ := Prod.mk.inj heq
      obtain ⟨hrun, hevents⟩ := ih hr
      exact ⟨cons hnext hrun, by rw [List.map_cons, hevents]⟩

theorem forall_of_exec {es : List ε} {P : ε → Prop} (h : exec next s es = some (ts, t))
    (hP : ∀ e ∈ es, P e) : ∀ tr ∈ ts, P tr.event := by
  intro tr htr
  apply hP _
  rw [← (of_exec h).2]
  exact List.mem_map_of_mem htr

theorem step_of_mem (h : Run next s ts t) {tr : Transition σ ε} (htr : tr ∈ ts) :
    next tr.before tr.event = some tr.after := by
  induction h with
  | nil => cases htr
  | cons hstep _ ih =>
    rcases List.mem_cons.mp htr with rfl | htr
    · exact hstep
    · exact ih htr

/-- What every transition of a run preserves holds at its end, and on both sides of
every transition. -/
theorem invariant {I : σ → Prop} (h : Run next s ts t) (hs : I s)
    (hstep : ∀ tr ∈ ts, next tr.before tr.event = some tr.after → I tr.before → I tr.after) :
    I t ∧ ∀ tr ∈ ts, I tr.before ∧ I tr.after := by
  induction h with
  | nil => exact ⟨hs, by simp⟩
  | cons hnext _ ih =>
    have hafter := hstep ⟨_, _, _⟩ List.mem_cons_self hnext hs
    obtain ⟨ht, hall⟩ := ih hafter fun tr htr => hstep tr (by simp [htr])
    refine ⟨ht, fun tr htr => ?_⟩
    rcases List.mem_cons.mp htr with rfl | htr
    · exact ⟨hs, hafter⟩
    · exact hall tr htr

theorem held {I : σ → Prop} (h : Run next s ts t)
    (hback : ∀ tr ∈ ts, I tr.after → I tr.before) : I t → I s := by
  induction h with
  | nil => exact id
  | cons _ _ ih =>
    exact hback ⟨_, _, _⟩ List.mem_cons_self ∘ ih fun tr htr => hback tr (by simp [htr])

/-- A flag that never comes back falls once, and only if the run ends without it. -/
theorem falls {p : σ → Bool} (h : Run next s ts t)
    (hback : ∀ tr ∈ ts, p tr.after = true → p tr.before = true) :
    (ts.countP fun tr => p tr.before && !p tr.after) =
      if p s && !p t then 1 else 0 := by
  induction h with
  | nil s => simp
  | @cons s t u e ts _ hrest ih =>
    have hback' : ∀ tr ∈ ts, p tr.after = true → p tr.before = true :=
      fun tr htr => hback tr (by simp [htr])
    have hlater : p u = true → p t = true :=
      hrest.held (I := fun s => p s = true) hback'
    have hstep : p t = true → p s = true := hback ⟨s, e, t⟩ List.mem_cons_self
    rw [List.countP_cons, ih hback']
    cases hs : p s <;> cases ht : p t <;> cases hu : p u <;> simp_all

theorem simulation {α ω : Type*} {f : σ → α} {g : α → ω → α}
    {o : Transition σ ε → List ω} (h : Run next s ts t)
    (hstep : ∀ tr ∈ ts, f tr.after = (o tr).foldl g (f tr.before)) :
    f t = (ts.flatMap o).foldl g (f s) := by
  induction h with
  | nil => rfl
  | cons _ _ ih =>
    rw [List.flatMap_cons, List.foldl_append, ← hstep ⟨_, _, _⟩ List.mem_cons_self]
    exact ih fun tr htr => hstep tr (by simp [htr])

theorem written {β : Type*} {f : σ → List β} {x : β} {front back : List β}
    (h : Run next s ts t) (hgrow : ∀ tr ∈ ts, f tr.before <+: f tr.after)
    (hend : f t = front ++ x :: back) (hstart : (f s).length ≤ front.length) :
    ∃ tr ∈ ts, ∃ middle back', front = f tr.before ++ middle ∧
      f tr.after = f tr.before ++ middle ++ x :: back' := by
  induction h with
  | nil s =>
    have hlength := congrArg List.length hend
    rw [List.length_append, List.length_cons] at hlength
    omega
  | @cons s t u e ts _ hrest ih =>
    by_cases hlater : (f t).length ≤ front.length
    · obtain ⟨tr, htr, hwritten⟩ := ih (fun tr htr => hgrow tr (List.mem_cons_of_mem _ htr)) hend
        hlater
      exact ⟨tr, List.mem_cons_of_mem _ htr, hwritten⟩
    · have hprefix : f t <+: front ++ x :: back := by
        rw [← hend]
        exact (hrest.invariant (I := fun u => f t <+: f u) (List.prefix_refl _)
          fun tr htr _ hbefore => hbefore.trans (hgrow tr (List.mem_cons_of_mem _ htr))).1
      obtain ⟨back', hback⟩ : front ++ [x] <+: f t := by
        refine List.prefix_of_prefix_length_le ⟨back, ?_⟩ hprefix ?_
        · rw [List.append_assoc, List.singleton_append]
        · rw [List.length_append, List.length_singleton]
          omega
      obtain ⟨middle, hmiddle⟩ : f s <+: front := by
        refine List.prefix_of_prefix_length_le (hgrow ⟨s, e, t⟩ List.mem_cons_self) ?_ hstart
        exact ⟨x :: back', by rw [← hback, List.append_assoc, List.singleton_append]⟩
      refine ⟨⟨s, e, t⟩, List.mem_cons_self, middle, back', hmiddle.symm, ?_⟩
      rw [hmiddle, ← hback, List.append_assoc, List.singleton_append]

/-- A component of the state has a run of its own, of the transitions that it sees. -/
theorem project {τ δ : Type*} {next' : τ → δ → Option τ} {f : σ → τ}
    {g : Transition σ ε → Option δ} (h : Run next s ts t)
    (hstep : ∀ tr ∈ ts, next tr.before tr.event = some tr.after → tr.ShowsAs next' f (g tr)) :
    Run next' (f s) (ts.filterMap fun tr => (g tr).map fun d => ⟨f tr.before, d, f tr.after⟩)
      (f t) := by
  induction h with
  | nil s => exact nil (f s)
  | @cons s t u e ts hnext _ ih =>
    have hrest := ih fun tr htr => hstep tr (List.mem_cons_of_mem _ htr)
    have hfirst := hstep ⟨s, e, t⟩ List.mem_cons_self hnext
    rw [List.filterMap_cons]
    cases hg : g ⟨s, e, t⟩ with
    | none =>
      rw [hg] at hfirst
      rw [Option.map_none]
      exact hfirst ▸ hrest
    | some d =>
      rw [hg] at hfirst
      exact cons hfirst hrest

end Run

end Webcrown.Transitions
