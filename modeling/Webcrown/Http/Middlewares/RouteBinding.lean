import Webcrown.Http.Middlewares.Route

/-!
# Binding path parameters

The loops of the matcher over the target are expressed by the text of the target:
which targets come to the parameters at all, which segments become their values,
and what the pattern has become when the values are written over the keys.
-/

namespace Webcrown.Http

open Bytes Common

/-- Whether the loop that looks for the route's target comes to the end of `u`. -/
def visits : ByteString → Bool
  | [] => true
  | [c] => c != slash
  | c :: d :: u => if c == slash then visits u else visits (d :: u)

theorem visits_slash (u : ByteString) :
    visits (slash :: u) = (!u.isEmpty && visits u.tail) := by
  cases u <;> simp [visits]

theorem visits_of_ne {c : UInt8} (u : ByteString) (h : c ≠ slash) :
    visits (c :: u) = visits u := by
  cases u <;> simp [visits, h]

def trailingSlashes (u : ByteString) : ℕ := (u.reverse.takeWhile (· == slash)).length

theorem trailingSlashes_cons (c : UInt8) (u : ByteString) :
    trailingSlashes (c :: u) =
      if trailingSlashes u = u.length ∧ c = slash then u.length + 1 else trailingSlashes u := by
  unfold trailingSlashes
  rw [List.reverse_cons, List.takeWhile_append, List.length_reverse]
  by_cases hall : (u.reverse.takeWhile (· == slash)).length = u.length
  · by_cases hc : c = slash <;> simp [hall, hc]
  · simp [hall]

/-- The end is reached behind an even number of slashes. -/
theorem visits_iff (u : ByteString) : visits u = true ↔ Even (trailingSlashes u) := by
  induction u using visits.induct with
  | case1 => simp [visits, trailingSlashes]
  | case2 c =>
    rw [trailingSlashes_cons]
    by_cases hc : c = slash <;> simp [visits, hc, trailingSlashes]
  | case3 c d u hc ih =>
    rw [visits, if_pos hc, ih, trailingSlashes_cons, trailingSlashes_cons]
    have hle : trailingSlashes u ≤ u.length :=
      (List.takeWhile_prefix _).length_le.trans_eq List.length_reverse
    have hc' : c = slash := by simpa using hc
    by_cases hd : trailingSlashes u = u.length ∧ d = slash
    · simp [hd, hc', Nat.even_add_one]
    · have hne : trailingSlashes u ≠ (d :: u).length := by simp only [List.length_cons]; omega
      simp only [if_neg hd, hne, false_and, if_false]
  | case4 c d u hc ih =>
    have hc' : c ≠ slash := by simpa using hc
    rw [visits, if_neg hc, ih, trailingSlashes_cons c]
    simp [hc']

theorem byteAt_of_lt {s : ByteString} {k : ℕ} (h : k < s.length) : byteAt s k = s[k] := by
  simp [byteAt, h]

theorem slice_byteAt (s : ByteString) (k : ℕ) : slice (byteAt s) k s.length = s.drop k := by
  have hall : slice (byteAt s) 0 s.length = s := slice_getElem? s
  have hdrop := drop_slice (byteAt s) 0 s.length k
  rw [hall, Nat.zero_add] at hdrop
  exact hdrop.symm

theorem substring_zero (s : ByteString) (k : ℕ) : substring s 0 k = s.take k := rfl

section FindBindingTarget

variable {target uri : ByteString} {it : ℕ}

theorem findBindingTarget_eq_some_iff {fuel j : ℕ} (hfuel : target.length ≤ it + fuel) :
    findBindingTarget target uri fuel it = some j ↔
      j = uri.length + 1 ∧ uri ++ [slash] <+: target ∧ it ≤ uri.length ∧
        visits (uri.drop it) = true := by
  induction fuel generalizing it with
  | zero =>
    apply iff_of_false (by simp [findBindingTarget])
    rintro ⟨-, hpre, hit, -⟩
    have := hpre.length_le
    simp at this
    omega
  | succ fuel ih =>
    rw [findBindingTarget]
    by_cases hend : target.length ≤ it
    · rw [if_pos hend]
      apply iff_of_false (by simp)
      rintro ⟨-, hpre, hit, -⟩
      have := hpre.length_le
      simp at this
      omega
    have hlt : it < target.length := by omega
    rw [if_neg hend]
    -- what the route's target has at this position, when the target begins with it
    have hsame : uri ++ [slash] <+: target → it < uri.length →
        uri.drop it = byteAt target it :: uri.drop (it + 1) := by
      rintro ⟨t, rfl⟩ h
      rw [List.drop_eq_getElem_cons h, byteAt_of_lt hlt]
      simp [h]
    by_cases hslash : byteAt target it = slash
    · rw [if_pos (by simp [hslash])]
      by_cases htake : substring target 0 it = uri
      · have hlen : it = uri.length := by
          rw [← htake, substring_zero, List.length_take]
          omega
        have hpre : uri ++ [slash] <+: target := by
          refine ⟨target.drop (it + 1), ?_⟩
          rw [← hslash, byteAt_of_lt hlt, List.append_assoc, List.singleton_append,
            ← List.drop_eq_getElem_cons hlt, ← htake, substring_zero, List.take_append_drop]
        rw [if_pos htake, Option.some.injEq]
        refine ⟨fun h => ⟨by omega, hpre, hlen.le, ?_⟩, fun h => by omega⟩
        rw [hlen, List.drop_length]
        rfl
      · rw [if_neg htake, ih (by omega)]
        refine and_congr_right fun _ => and_congr_right fun hpre => ?_
        have hne : it ≠ uri.length := by
          rintro rfl
          obtain ⟨t, rfl⟩ := hpre
          exact htake (by simp [substring_zero])
        by_cases hlt' : it < uri.length
        · rw [hsame hpre hlt', hslash, visits_slash, List.tail_drop]
          rcases (Nat.succ_le_of_lt hlt').eq_or_lt with he | hlt2
          · rw [List.drop_of_length_le he.ge]
            simp only [List.isEmpty_nil, Bool.not_true, Bool.false_and]
            exact iff_of_false (fun h => by omega) fun h => by cases h.2
          · have hempty : (uri.drop (it + 1)).isEmpty = false := by
              rw [List.isEmpty_eq_false_iff, ne_eq, List.drop_eq_nil_iff]
              omega
            rw [hempty, Bool.not_false, Bool.true_and]
            exact and_congr_left fun _ => iff_of_true (by omega) hlt'.le
        · exact iff_of_false (fun h => by omega) fun h => by omega
    · rw [if_neg (by simp [hslash]), ih (by omega)]
      refine and_congr_right fun _ => and_congr_right fun hpre => ?_
      have hne : it ≠ uri.length := by
        rintro rfl
        obtain ⟨t, rfl⟩ := hpre
        exact hslash (by simp [byteAt])
      by_cases hlt' : it < uri.length
      · rw [hsame hpre hlt', visits_of_ne _ hslash]
        exact and_congr_left fun _ => iff_of_true (by omega) hlt'.le
      · exact iff_of_false (fun h => by omega) fun h => by omega

/-- The parameters are reached by the targets that go on behind the route's own with a
slash, unless that one ends in an odd number of slashes. -/
theorem findBindingTarget_iff {j : ℕ} :
    findBindingTarget target uri target.length 0 = some j ↔
      j = uri.length + 1 ∧ Even (trailingSlashes uri) ∧ ∃ rest, target = uri ++ slash :: rest := by
  rw [findBindingTarget_eq_some_iff (by omega), List.drop_zero, visits_iff]
  constructor
  · rintro ⟨rfl, ⟨rest, rfl⟩, -, heven⟩
    exact ⟨rfl, heven, rest, by simp⟩
  · rintro ⟨rfl, heven, rest, rfl⟩
    exact ⟨rfl, ⟨rest, by simp⟩, Nat.zero_le _, heven⟩

end FindBindingTarget

def nextSegment (t : ByteString) : ByteString := t.takeWhile (· != slash)

def behindSegment (t : ByteString) : ByteString := (t.dropWhile (· != slash)).tail

/-- The next segments of a text, empty ones from its end on. -/
def segments : ℕ → ByteString → List ByteString
  | 0, _ => []
  | n + 1, t => nextSegment t :: segments n (behindSegment t)

@[simp] theorem length_segments (n : ℕ) (t : ByteString) : (segments n t).length = n := by
  induction n generalizing t with
  | zero => rfl
  | succ n ih => simp [segments, ih]

section FindValue

variable {target : ByteString} {it : ℕ}

theorem findNextPathParameterValue_eq (h : it ≤ target.length) :
    (findNextPathParameterValue target it).1 = nextSegment (target.drop it) ∧
      (findNextPathParameterValue target it).2 = it + (nextSegment (target.drop it)).length := by
  have hle : scan (fun k => byteAt target k == slash) target.length it ≤ target.length := scan_le h
  have hge : it ≤ scan (fun k => byteAt target k == slash) target.length it := le_scan
  have hscan :
      slice (byteAt target) it (scan (fun k => byteAt target k == slash) target.length it) =
      nextSegment (target.drop it) := by
    rw [slice_scan (f := (· == slash)) h, slice_byteAt]
    rfl
  have hlen := congrArg List.length hscan
  rw [length_slice] at hlen
  simp only [findNextPathParameterValue]
  refine ⟨?_, by omega⟩
  rw [substring, ← slice_byteAt target it, take_slice _ (by omega), slice_byteAt target it, ← hscan]
  congr 1
  omega

theorem drop_behindValue (h : it ≤ target.length) :
    let v := findNextPathParameterValue target it
    let it' := if byteAt target v.2 == slash then v.2 + 1 else v.2
    it' ≤ target.length ∧ target.drop it' = behindSegment (target.drop it) := by
  intro v it'
  obtain ⟨-, hstop⟩ := findNextPathParameterValue_eq h
  have hrest : target.drop v.2 = (target.drop it).dropWhile (· != slash) := by
    have hsplit := List.takeWhile_append_dropWhile (p := (· != slash)) (l := target.drop it)
    rw [show v.2 = _ from hstop, ← List.drop_drop]
    nth_rewrite 2 [← hsplit]
    exact List.drop_left
  have hle : v.2 ≤ target.length := scan_le h
  rw [behindSegment, ← hrest]
  rcases hle.eq_or_lt with hend | hlt
  · have hzero : byteAt target v.2 = 0 := by simp [byteAt, hend]
    have hit' : it' = v.2 := if_neg (by rw [hzero]; decide)
    rw [hit', hend, List.drop_length]
    exact ⟨le_rfl, rfl⟩
  · have hslash : byteAt target v.2 = slash := by
      rw [List.drop_eq_getElem_cons hlt, ← byteAt_of_lt hlt] at hrest
      have := List.head?_dropWhile_not (· != slash) (target.drop it)
      rw [← hrest] at this
      simpa using this
    have hit' : it' = v.2 + 1 := if_pos (by simp [hslash])
    rw [hit', List.tail_drop]
    exact ⟨hlt, rfl⟩

end FindValue

/-- The text with the value in place of the first occurrence of the name and of the byte
before it. -/
def overwrite (full name value : ByteString) : ByteString :=
  match find name full with
  | none => full
  | some k => full.take (k - 1) ++ value ++ full.drop (k + name.length)

/-- The text with the values written over their keys, one after the other. -/
def written (full : ByteString) (bindings : List (ByteString × ByteString)) : ByteString :=
  bindings.foldl (fun full b => overwrite full b.1 b.2) full

theorem find_eq_zero_iff {name full : ByteString} : find name full = some 0 ↔ name <+: full := by
  refine ⟨fun h => ?_, find_of_startsWith⟩
  obtain ⟨⟨x, y, hfull, hx⟩, -⟩ := find_spec h
  rw [List.length_eq_zero_iff.mp hx, List.nil_append] at hfull
  exact ⟨y, hfull.symm⟩

/-- The position of `replace` is wrong exactly where the text begins with the name. -/
theorem replaceKey_eq (full name value : ByteString) :
    replaceKey full name value =
      if name <+: full then .error .outOfRange else .ok (overwrite full name value) := by
  unfold replaceKey overwrite
  by_cases h : name <+: full
  · rw [if_pos h, find_of_startsWith h]
  · rw [if_neg h]
    cases hf : find name full with
    | none => rfl
    | some k =>
      cases k with
      | zero => exact absurd (find_eq_zero_iff.mp hf) h
      | succ k =>
        simp only [Nat.add_sub_cancel]
        rw [Nat.add_right_comm]

section BindValues

variable {target : ByteString} {it : ℕ}

/-- The loop throws when some name begins the text that the values before it have made of
the pattern; otherwise it yields the text that all values make of it. -/
theorem bindValues_verdict (ps : PathParameters) (full : ByteString) (h : it ≤ target.length) :
    ((bindValues target ps it full).1 = .error .outOfRange ↔
      ∃ before p after, ps = before ++ p :: after ∧ p.name <+: written full
        ((before.map RouteParameter.name).zip (segments before.length (target.drop it)))) ∧
    ∀ full', (bindValues target ps it full).1 = .ok full' → full' = written full
      ((ps.map RouteParameter.name).zip (segments ps.length (target.drop it))) := by
  induction ps generalizing it full with
  | nil => simp [bindValues, written]
  | cons p ps ih =>
    obtain ⟨hvalue, -⟩ := findNextPathParameterValue_eq h
    obtain ⟨hit', hdrop⟩ := drop_behindValue h
    simp only [bindValues]
    rw [replaceKey_eq]
    by_cases hname : p.name <+: full
    · rw [if_pos hname]
      exact ⟨iff_of_true rfl ⟨[], p, ps, rfl, hname⟩, fun _ hok => by cases hok⟩
    · rw [if_neg hname, hvalue]
      obtain ⟨hthrow, hdone⟩ := ih (overwrite full p.name (nextSegment (target.drop it))) hit'
      rw [hdrop] at hthrow hdone
      refine ⟨hthrow.trans ⟨?_, ?_⟩, fun full' hok => hdone full' hok⟩
      · rintro ⟨before, q, after, rfl, hq⟩
        exact ⟨p :: before, q, after, rfl, hq⟩
      · rintro ⟨before, q, after, hps, hq⟩
        cases before with
        | nil =>
          obtain ⟨rfl, -⟩ := List.cons.inj hps
          exact absurd hq hname
        | cons p' before =>
          obtain ⟨rfl, rfl⟩ := List.cons.inj hps
          exact ⟨before, q, after, rfl, hq⟩

theorem bindValues_values (ps : PathParameters) (full : ByteString) (h : it ≤ target.length)
    {full' : ByteString} (hok : (bindValues target ps it full).1 = .ok full') :
    (bindValues target ps it full).2.map RouteParameter.value =
      segments ps.length (target.drop it) := by
  induction ps generalizing it full with
  | nil => rfl
  | cons p ps ih =>
    obtain ⟨hvalue, -⟩ := findNextPathParameterValue_eq h
    obtain ⟨hit', hdrop⟩ := drop_behindValue h
    simp only [bindValues] at hok ⊢
    rw [replaceKey_eq] at hok ⊢
    by_cases hname : p.name <+: full
    · rw [if_pos hname] at hok
      cases hok
    · rw [if_neg hname] at hok ⊢
      have hrest := ih _ hit' hok
      rw [hdrop] at hrest
      simp only [List.map_cons, List.length_cons, segments]
      rw [hrest, hvalue]

theorem head?_bindValues (p : RouteParameter) (ps : PathParameters) (full : ByteString)
    (h : it ≤ target.length) :
    (bindValues target (p :: ps) it full).2.head?.map RouteParameter.value =
      some (nextSegment (target.drop it)) := by
  obtain ⟨hvalue, -⟩ := findNextPathParameterValue_eq h
  simp only [bindValues]
  cases replaceKey full p.name (findNextPathParameterValue target it).1 <;> simp [hvalue]

end BindValues

namespace Route

/-- A request that comes to the parameters of a route, with the text for their values. -/
structure Binds (r : Route) (target : ByteString) (method : HttpMethod) (rest : ByteString) :
    Prop where
  method_eq : method = r.method
  target_eq : target = r.uriTarget ++ slash :: rest
  even : Even (trailingSlashes r.uriTarget)

theorem isMatch_of_binds {r : Route} {target rest : ByteString} {method : HttpMethod}
    (h : r.Binds target method rest) :
    r.isMatchWithTargetRequest target method =
      let b := bindValues target r.pathParameters (r.uriTarget.length + 1) r.path
      (b.1.map fun full => target == full, { r with pathParameters := b.2 }) := by
  have hhead := r.uriTarget_head
  obtain ⟨u, hu⟩ : ∃ u, r.uriTarget = slash :: u := by
    cases hcons : r.uriTarget with
    | nil => simp [hcons] at hhead
    | cons c u => exact ⟨u, by simpa [hcons] using hhead⟩
  have hslash : startsWith target [slash] = true := by
    rw [startsWith_slash_iff, h.target_eq, hu]
    rfl
  have hempty : target.isEmpty = false := by rw [h.target_eq, hu]; rfl
  have hne : target ≠ r.uriTarget := by
    intro he
    have := congrArg List.length (he.symm.trans h.target_eq)
    simp at this
  have hfind := findBindingTarget_iff.mpr ⟨rfl, h.even, rest, h.target_eq⟩
  simp [isMatchWithTargetRequest, hslash, hempty, h.method_eq, hne, hfind]

theorem isMatch_of_not_binds {r : Route} {target : ByteString} {method : HttpMethod}
    (h : ∀ rest, ¬ r.Binds target method rest) :
    ∃ verdict, r.isMatchWithTargetRequest target method = (.ok verdict, r) := by
  unfold isMatchWithTargetRequest
  split_ifs with hslash hempty hmethod htarget
  · exact ⟨_, rfl⟩
  · exact ⟨_, rfl⟩
  · exact ⟨_, rfl⟩
  · exact ⟨_, rfl⟩
  · cases hfind : findBindingTarget target r.uriTarget target.length 0 with
    | none => exact ⟨_, rfl⟩
    | some j =>
      obtain ⟨-, heven, rest, hrest⟩ := findBindingTarget_iff.mp hfind
      exact absurd ⟨by simpa using hmethod, hrest, heven⟩ (h rest)

end Route

end Webcrown.Http
