import Webcrown.Http.Middlewares.RouteHistories

/-!
# What the constructor reads out of a path

A path is a row of segments, each behind a slash. What stands in front of the first
bound segment is the route's target. The key of a parameter goes on up to the next
bound segment, over literals that stand in between; the key of the last parameter
is its segment.
-/

namespace Webcrown.Http

open Bytes Common

/-- Segments, each behind a slash. -/
def joined (segs : List ByteString) : ByteString := segs.flatMap (slash :: ·)

@[simp] theorem joined_nil : joined [] = [] := rfl

@[simp] theorem joined_cons (s : ByteString) (segs : List ByteString) :
    joined (s :: segs) = slash :: (s ++ joined segs) := rfl

@[simp] theorem joined_append (segs segs' : List ByteString) :
    joined (segs ++ segs') = joined segs ++ joined segs' := List.flatMap_append

theorem head?_joined {segs : List ByteString} {c : UInt8} (h : (joined segs).head? = some c) :
    c = slash := by
  cases segs <;> simp_all

theorem mem_joined {segs : List ByteString} {c : UInt8} (h : c ∈ joined segs) :
    c = slash ∨ ∃ s ∈ segs, c ∈ s := by
  simp only [joined, List.mem_flatMap, List.mem_cons] at h
  obtain ⟨s, hs, rfl | hc⟩ := h
  · exact Or.inl rfl
  · exact Or.inr ⟨s, hs, hc⟩

theorem pair_infix_append {s t : ByteString} (hs : slash ∉ s)
    (h : [slash, colon] <:+: s ++ t) : [slash, colon] <:+: t := by
  induction s with
  | nil => exact h
  | cons c s ih =>
    rw [List.cons_append, List.infix_cons_iff] at h
    rcases h with ⟨z, hz⟩ | h
    · exact absurd (by simp [List.head_eq_of_cons_eq hz]) hs
    · exact ih (fun hmem => hs (by simp [hmem])) h

theorem not_infix_pair {s t : ByteString} (hs : slash ∉ s) (ht : colon ∉ t) :
    ¬ [slash, colon] <:+: s ++ t := by
  intro h
  exact ht ((pair_infix_append hs h).subset (by simp))

theorem not_pair_infix_joined {segs : List ByteString}
    (h : ∀ s ∈ segs, s ≠ [] ∧ slash ∉ s ∧ s.head? ≠ some colon) :
    ¬ [slash, colon] <:+: joined segs := by
  induction segs with
  | nil => simp
  | cons s segs ih =>
    obtain ⟨hne, hslash, hhead⟩ := h s (by simp)
    rw [joined_cons, List.infix_cons_iff]
    rintro (⟨z, hz⟩ | hinfix)
    · cases s with
      | nil => exact hne rfl
      | cons c s =>
        simp only [List.cons_append, List.nil_append, List.cons.injEq, true_and] at hz
        exact hhead (by rw [List.head?_cons, ← hz.1])
    · exact ih (fun t ht => h t (by simp [ht])) (pair_infix_append hslash hinfix)

theorem getLast?_joined {s t : ByteString} {segs : List ByteString}
    (h : ∀ s' ∈ s :: segs, s' ≠ [] ∧ slash ∉ s') :
    (t ++ joined (s :: segs)).getLast? ≠ some slash := by
  induction segs generalizing s t with
  | nil =>
    obtain ⟨hne, hslash⟩ := h s (by simp)
    intro hlast
    obtain rfl | ⟨u, c, rfl⟩ := List.eq_nil_or_concat' s
    · exact hne rfl
    have hassoc : t ++ joined [u ++ [c]] = (t ++ slash :: u) ++ [c] := by simp
    rw [hassoc, List.getLast?_concat, Option.some.injEq] at hlast
    exact hslash (by simp [hlast])
  | cons s' segs ih =>
    have hassoc : t ++ joined (s :: s' :: segs) = (t ++ slash :: s) ++ joined (s' :: segs) := by
      simp
    rw [hassoc]
    exact ih fun s'' hs'' => h s'' (List.mem_cons_of_mem s hs'')

theorem trailingSlashes_of_getLast? {s : ByteString} (h : s.getLast? ≠ some slash) :
    trailingSlashes s = 0 := by
  unfold trailingSlashes
  rw [List.length_eq_zero_iff]
  obtain rfl | ⟨u, c, rfl⟩ := List.eq_nil_or_concat' s
  · rfl
  · rw [List.getLast?_concat, ne_eq, Option.some.injEq] at h
    simp [h]

theorem even_trailingSlashes_joined {segs : List ByteString} (hne : segs ≠ [])
    (h : ∀ s ∈ segs, s ≠ [] ∧ slash ∉ s) : Even (trailingSlashes (joined segs)) := by
  obtain ⟨s, segs, rfl⟩ := List.exists_cons_of_ne_nil hne
  have hzero : trailingSlashes (joined (s :: segs)) = 0 :=
    trailingSlashes_of_getLast? (getLast?_joined (t := []) h)
  rw [hzero]
  exact Even.zero

section Segments

variable {s t u : ByteString}

theorem nextSegment_append (hs : slash ∉ s) (ht : ∀ c, t.head? = some c → c = slash) :
    nextSegment (s ++ t) = s ∧ behindSegment (s ++ t) = t.tail := by
  have hall : ∀ c ∈ s, (c != slash) = true := by
    intro c hc
    simp only [bne_iff_ne, ne_eq]
    rintro rfl
    exact hs hc
  have hstop : t.takeWhile (· != slash) = [] ∧ t.dropWhile (· != slash) = t := by
    cases t with
    | nil => exact ⟨rfl, rfl⟩
    | cons c t => simp [ht c rfl]
  unfold nextSegment behindSegment
  rw [List.takeWhile_append_of_pos hall, List.dropWhile_append_of_pos hall, hstop.1, hstop.2]
  exact ⟨List.append_nil s, rfl⟩

theorem slash_notMem_nextSegment (t : ByteString) : slash ∉ nextSegment t := by
  intro h
  have := List.mem_takeWhile_imp h
  simp at this

theorem slash_notMem_segments {n : ℕ} (t : ByteString) : ∀ s ∈ segments n t, slash ∉ s := by
  induction n generalizing t with
  | zero => simp [segments]
  | succ n ih =>
    intro s hs
    rcases List.mem_cons.mp hs with rfl | hs
    · exact slash_notMem_nextSegment t
    · exact ih _ s hs

theorem segments_joined {segs : List ByteString} (hsegs : ∀ s ∈ segs, slash ∉ s)
    (hu : ∀ c, u.head? = some c → c = slash) :
    segments segs.length (joined segs ++ u).tail = segs := by
  induction segs with
  | nil => rfl
  | cons s segs ih =>
    have hrest : ∀ c, (joined segs ++ u).head? = some c → c = slash := by
      intro c hc
      cases segs with
      | nil => exact hu c hc
      | cons => simpa using hc.symm
    obtain ⟨hnext, hbehind⟩ := nextSegment_append (hsegs s (by simp)) hrest
    simp only [joined_cons, List.cons_append, List.tail_cons, List.length_cons, segments,
      List.append_assoc]
    rw [hnext, hbehind, ih fun t ht => hsegs t (by simp [ht])]

theorem joined_injective {segs segs' : List ByteString} (h : ∀ s ∈ segs, slash ∉ s)
    (h' : ∀ s ∈ segs', slash ∉ s) (heq : joined segs = joined segs') : segs = segs' := by
  induction segs generalizing segs' with
  | nil => cases segs' <;> simp_all
  | cons s segs ih =>
    cases segs' with
    | nil => simp at heq
    | cons s' segs' =>
      simp only [joined_cons, List.cons.injEq, true_and] at heq
      have hs : nextSegment (s ++ joined segs) = s ∧
          behindSegment (s ++ joined segs) = (joined segs).tail :=
        nextSegment_append (h s (by simp)) fun _ => head?_joined
      have hs' : nextSegment (s' ++ joined segs') = s' ∧
          behindSegment (s' ++ joined segs') = (joined segs').tail :=
        nextSegment_append (h' s' (by simp)) fun _ => head?_joined
      rw [heq] at hs
      obtain rfl : s = s' := hs.1.symm.trans hs'.1
      rw [ih (fun t ht => h t (by simp [ht])) (fun t ht => h' t (by simp [ht]))
        (List.append_cancel_left heq)]

/-- A text holds its next segments, or it is too short for them. -/
theorem joined_segments (n : ℕ) (t : ByteString) :
    (∃ u, slash :: t = joined (segments (n + 1) t) ++ u) ∨
      (slash :: t).length < (joined (segments (n + 1) t)).length := by
  induction n generalizing t with
  | zero =>
    left
    refine ⟨t.dropWhile (· != slash), ?_⟩
    simp [segments, nextSegment, List.takeWhile_append_dropWhile]
  | succ n ih =>
    have hsplit : t = nextSegment t ++ t.dropWhile (· != slash) :=
      List.takeWhile_append_dropWhile.symm
    cases hd : t.dropWhile (· != slash) with
    | nil =>
      -- the text ends with this segment
      right
      have hlen := congrArg List.length hsplit
      rw [hd, List.append_nil] at hlen
      simp only [segments, joined_cons, List.length_cons, List.length_append] at hlen ⊢
      omega
    | cons c u =>
      have hc : c = slash := by
        have := List.head?_dropWhile_not (· != slash) t
        rw [hd] at this
        simpa using this
      have hbehind : behindSegment t = u := by rw [behindSegment, hd, List.tail_cons]
      have ht : slash :: t = slash :: (nextSegment t ++ slash :: u) := by
        rw [← hc, ← hd, ← hsplit]
      rw [segments, joined_cons, hbehind, ht]
      rcases ih u with ⟨v, hv⟩ | hlt
      · left
        exact ⟨v, by rw [hv]; simp⟩
      · right
        simp only [List.length_cons, List.length_append] at hlt ⊢
        omega

end Segments

section Parse

variable {path : ByteString} {it : ℕ}

theorem bindsAt_iff {k : ℕ} :
    bindsAt path k = true ↔ HoldsAt (byteAt path) [slash, colon] k := by
  rw [holdsAt_iff]
  simp only [bindsAt, Bool.and_eq_true, beq_iff_eq, List.length_cons, List.length_nil]
  constructor
  · rintro ⟨h0, h1⟩ j hj
    interval_cases j
    · exact h0
    · exact h1
  · exact fun h => ⟨h 0 (by omega), h 1 (by omega)⟩

theorem byteAt_length (s : ByteString) : byteAt s s.length = 0 := by simp [byteAt]

theorem scan_bindsAt {k : ByteString} {t : ByteString} (hit : it ≤ path.length)
    (hpath : path.drop it = k ++ t) (hk : ¬ [slash, colon] <:+: k)
    (ht : t = [] ∨ ∃ u, t = slash :: colon :: u) :
    scan (bindsAt path) path.length it = it + k.length := by
  have hslice : slice (byteAt path) it path.length = k ++ t := by rw [slice_byteAt, hpath]
  rcases ht with rfl | ⟨u, rfl⟩
  · rw [List.append_nil] at hslice
    have hlen := congrArg List.length hslice
    rw [length_slice] at hlen
    have hnone : find [slash, colon] (slice (byteAt path) it path.length) = none := by
      rw [hslice, find_eq_none_iff]
      exact hk
    obtain h | ⟨hlt, hstop, hend⟩ : scan (bindsAt path) path.length it = path.length ∨ _ :=
      scan_of_find_none hit (fun _ _ _ => bindsAt_iff) hnone
    · omega
    · -- a slash at the end has the terminating NUL behind it
      simp only [List.length_cons, List.length_nil] at hend
      have hlast : scan (bindsAt path) path.length it + 1 = path.length := by omega
      rw [bindsAt, hlast, byteAt_length, Bool.and_eq_true] at hstop
      exact absurd hstop.2 (by decide)
  · apply scan_of_find_some (by simp) hit (fun _ _ _ => bindsAt_iff)
    rw [hslice]
    exact find_pair (by decide) hk u

theorem substring_of_drop {k t : ByteString} (hpath : path.drop it = k ++ t) :
    substring path it (it + k.length) = k := by
  rw [substring, hpath, Nat.add_sub_cancel_left, List.take_left]

theorem extractNextBindKey_next {k t : ByteString}
    (hpath : path.drop it = colon :: (k ++ slash :: colon :: t)) (hk : ¬ [slash, colon] <:+: k) :
    extractNextBindKey path it = (k, it + 1 + k.length) := by
  have hdrop : path.drop (it + 1) = k ++ slash :: colon :: t := by
    rw [← List.drop_drop, hpath, List.drop_one, List.tail_cons]
  have hlen := congrArg List.length hdrop
  simp only [List.length_drop, List.length_append, List.length_cons] at hlen
  have hscan := scan_bindsAt (by omega) hdrop hk (Or.inr ⟨t, rfl⟩)
  unfold extractNextBindKey
  dsimp only
  rw [hscan, if_pos (by omega), substring_of_drop hdrop]

theorem extractNextBindKey_last {n : ByteString} {segs : List ByteString}
    (hpath : path.drop it = colon :: (n ++ joined segs)) (hn : slash ∉ n)
    (hnone : ¬ [slash, colon] <:+: n ++ joined segs)
    (hlast : path.getLast? ≠ some slash) :
    extractNextBindKey path it = (n, it + 1 + n.length) := by
  have hdrop : path.drop (it + 1) = n ++ joined segs := by
    rw [← List.drop_drop, hpath, List.drop_one, List.tail_cons]
  have hpos : it < path.length := by
    have hlen := congrArg List.length hpath
    simp only [List.length_drop, List.length_cons] at hlen
    omega
  have hlen := congrArg List.length hdrop
  simp only [List.length_drop, List.length_append] at hlen
  have hscan := scan_bindsAt (t := []) hpos
    (by rw [hdrop, List.append_nil]) hnone (Or.inl rfl)
  have hend : ¬ (byteAt path (path.length - 1) == slash) = true := by
    rw [byteAt_of_lt (by omega), beq_iff_eq]
    intro h
    exact hlast (by rw [List.getLast?_eq_getElem?, List.getElem?_eq_getElem (by omega), h])
  have hstop : scan (fun k => byteAt path k == slash) path.length (it + 1) =
      it + 1 + n.length := by
    refine scan_of_slice (f := (· == slash)) hpos
      (by rw [slice_byteAt, hdrop]) (fun c hc => ?_) fun c hc => ?_
    · rw [beq_eq_false_iff_ne]
      rintro rfl
      exact hn hc
    · rw [head?_joined hc, beq_self_eq_true]
  have hnot : ¬ it + 1 + (n ++ joined segs).length < path.length := by
    rw [List.length_append]
    omega
  unfold extractNextBindKey
  dsimp only
  rw [hscan, if_neg hnot, if_neg hend, hstop, substring_of_drop hdrop]

theorem bindKeys_of_no_colon {fuel : ℕ} (h : colon ∉ path.drop it) :
    bindKeys path fuel it = [] := by
  induction fuel generalizing it with
  | zero => rfl
  | succ fuel ih =>
    rw [bindKeys]
    by_cases hend : path.length ≤ it
    · rw [if_pos hend]
    · have hcell := List.drop_eq_getElem_cons (Nat.lt_of_not_le hend)
      rw [hcell, List.mem_cons, not_or] at h
      have hne : ¬ (byteAt path it == colon) = true := by
        rw [byteAt_of_lt (Nat.lt_of_not_le hend), beq_iff_eq]
        exact fun he => h.1 he.symm
      rw [if_neg hend, if_neg hne, ih h.2]

/-- The parameters with these keys, from the position of the first `:` on. -/
def keyParameters (pos : ℕ) : List ByteString → PathParameters
  | [] => []
  | k :: keys => ⟨k, [], (pos : ℤ).bmod (2 ^ 32)⟩ :: keyParameters (pos + k.length + 2) keys

theorem names_keyParameters (pos : ℕ) (keys : List ByteString) :
    (keyParameters pos keys).map RouteParameter.name = keys := by
  induction keys generalizing pos with
  | nil => rfl
  | cons k keys ih => simp [keyParameters, ih]

/-- The loop on the `:` of a parameter collects the keys of all that follow. -/
theorem bindKeys_eq {keys trailing : List ByteString} {n : ByteString} {fuel : ℕ}
    (hpath : slash :: path.drop it = joined ((keys ++ [n]).map (colon :: ·)) ++ joined trailing)
    (hfuel : path.length ≤ it + fuel) (hkeys : ∀ k ∈ keys, ¬ [slash, colon] <:+: k)
    (hn : slash ∉ n) (htrailing : colon ∉ joined trailing) (hlast : path.getLast? ≠ some slash) :
    bindKeys path fuel it = keyParameters it (keys ++ [n]) := by
  have hlt : it < path.length := by
    have hlen := congrArg List.length hpath
    simp only [List.map_append, joined_append, List.map_cons, joined_cons, List.length_cons,
      List.length_drop, List.length_append] at hlen
    omega
  obtain ⟨fuel, rfl⟩ : ∃ f, fuel = f + 1 := ⟨fuel - 1, by omega⟩
  induction keys generalizing it fuel with
  | nil =>
    simp only [List.nil_append, List.map_cons, List.map_nil, joined_cons, joined_nil,
      List.append_nil, List.cons_append, List.cons.injEq, true_and] at hpath
    have hcolon : byteAt path it = colon := by
      rw [byteAt_of_lt hlt]
      exact List.head_eq_of_cons_eq ((List.drop_eq_getElem_cons hlt).symm.trans hpath)
    have hkey := extractNextBindKey_last hpath hn (not_infix_pair hn htrailing) hlast
    have hrest : path.drop (it + 1 + n.length) = joined trailing := by
      rw [← List.drop_drop, ← List.drop_drop, hpath, List.drop_one, List.tail_cons, List.drop_left]
    have hnone : colon ∉ path.drop (it + 1 + n.length + 1) := by
      rw [← List.drop_drop, hrest]
      exact fun h => htrailing (List.mem_of_mem_drop h)
    rw [bindKeys, if_neg (by omega), if_pos (by simp [hcolon]), hkey]
    dsimp only
    rw [bindKeys_of_no_colon hnone]
    rfl
  | cons k keys ih =>
    obtain ⟨t, ht⟩ : ∃ t, joined ((keys ++ [n]).map (colon :: ·)) ++ joined trailing =
        slash :: colon :: t := by
      cases keys <;> exact ⟨_, rfl⟩
    have hdrop : path.drop it = colon :: (k ++ slash :: colon :: t) := by
      rw [← ht]
      simpa using hpath
    have hcolon : byteAt path it = colon := by
      rw [byteAt_of_lt hlt]
      exact List.head_eq_of_cons_eq ((List.drop_eq_getElem_cons hlt).symm.trans hdrop)
    have hkey := extractNextBindKey_next hdrop (hkeys k (by simp))
    have hrest : slash :: path.drop (it + 1 + k.length + 1) =
        joined ((keys ++ [n]).map (colon :: ·)) ++ joined trailing := by
      rw [ht, Nat.add_assoc it, Nat.add_assoc it, ← List.drop_drop, hdrop]
      simp [Nat.add_comm 1, List.drop_append]
    have hlen := congrArg List.length hdrop
    simp only [List.length_drop, List.length_append, List.length_cons] at hlen
    rw [bindKeys, if_neg (by omega), if_pos (by simp [hcolon]), hkey]
    obtain ⟨fuel, rfl⟩ : ∃ f, fuel = f + 1 := ⟨fuel - 1, by omega⟩
    dsimp only
    rw [ih hrest (fun k' hk' => hkeys k' (by simp [hk'])) (by omega) fuel (by omega)]
    simp only [List.cons_append, keyParameters]
    congr 2
    omega

end Parse

/-- What a route has read out of its path: the text in front of the first parameter, the
keys, and the text behind the last one. -/
structure Route.Reads (r : Route) (method : HttpMethod) (front : ByteString)
    (keys : List ByteString) (behind : ByteString) : Prop where
  path : r.path = front ++ joined (keys.map (colon :: ·)) ++ behind
  uriTarget : r.uriTarget = front
  method : r.method = method
  names : r.pathParameters.map RouteParameter.name = keys

namespace Route

variable {r r' : Route} {method : HttpMethod} {front behind : ByteString} {keys : List ByteString}

theorem Reads.congr (h : r.Reads method front keys behind) (hr : SamePattern r r') :
    r'.Reads method front keys behind where
  path := hr.path ▸ h.path
  uriTarget := hr.uriTarget ▸ h.uriTarget
  method := hr.method ▸ h.method
  names := by
    have hkeys := congrArg (List.map Prod.fst) hr.keys
    simp only [List.map_map] at hkeys
    exact hkeys.symm.trans h.names

theorem uriTargetEnd_eq {t : ByteString} (hfront : front.head? = some slash)
    (hno : ¬ [slash, colon] <:+: front) (ht : t = [] ∨ ∃ u, t = slash :: colon :: u) :
    uriTargetEnd (front ++ t) = front.length := by
  obtain ⟨f, rfl⟩ : ∃ f, front = slash :: f := by
    cases front with
    | nil => cases hfront
    | cons c f => exact ⟨f, by simpa using hfront⟩
  rw [List.infix_cons_iff, not_or] at hno
  have hscan : scan (bindsAt (slash :: f ++ t)) (slash :: f ++ t).length 1 = 1 + f.length :=
    scan_bindsAt (by simp) (by simp) hno.2 ht
  rw [uriTargetEnd, hscan, List.length_cons, Nat.add_comm]

theorem make_literal (method : HttpMethod) (hfront : front.head? = some slash)
    (hno : ¬ [slash, colon] <:+: front) :
    ∃ r, Route.make method front = .ok r ∧ r.Reads method front [] [] := by
  have hend := uriTargetEnd_eq hfront hno (Or.inl rfl)
  rw [List.append_nil] at hend
  have hempty : front.isEmpty = false := by
    cases front with
    | nil => cases hfront
    | cons => rfl
  unfold make
  rw [dif_pos (startsWith_slash_iff.mpr hfront), if_neg (by simp [hempty])]
  refine ⟨_, rfl, by simp, ?_, rfl, ?_⟩
  · simp only [hend, substring_zero, List.take_length]
  · simp only [hend, if_neg (lt_irrefl _), List.map_nil]

theorem getLast?_keys (front : ByteString) (keys : List ByteString) {trailing : List ByteString}
    {n : ByteString} (hn : n ≠ [] ∧ slash ∉ n) (htrailing : ∀ s ∈ trailing, s ≠ [] ∧ slash ∉ s) :
    (front ++ joined ((keys ++ [n]).map (colon :: ·)) ++ joined trailing).getLast? ≠
      some slash := by
  have hrow : front ++ joined ((keys ++ [n]).map (colon :: ·)) ++ joined trailing =
      (front ++ joined (keys.map (colon :: ·))) ++ joined ((colon :: n) :: trailing) := by simp
  rw [hrow]
  refine getLast?_joined fun s hs => ?_
  rcases List.mem_cons.mp hs with rfl | hs
  · refine ⟨by simp, fun h => ?_⟩
    rcases List.mem_cons.mp h with h | h
    · exact absurd h (by decide)
    · exact hn.2 h
  · exact htrailing s hs

theorem make_keys (method : HttpMethod) {trailing : List ByteString} {n : ByteString}
    (hfront : front.head? = some slash) (hno : ¬ [slash, colon] <:+: front)
    (hkeys : ∀ k ∈ keys, ¬ [slash, colon] <:+: k) (hn : n ≠ [] ∧ slash ∉ n)
    (htrailing : ∀ s ∈ trailing, s ≠ [] ∧ slash ∉ s ∧ colon ∉ s) :
    ∃ r, Route.make method (front ++ joined ((keys ++ [n]).map (colon :: ·)) ++ joined trailing) =
        .ok r ∧ r.Reads method front (keys ++ [n]) (joined trailing) ∧
      r.pathParameters = keyParameters (front.length + 1) (keys ++ [n]) := by
  obtain ⟨t, ht⟩ : ∃ t, joined ((keys ++ [n]).map (colon :: ·)) ++ joined trailing =
      slash :: colon :: t := by
    cases keys <;> exact ⟨_, rfl⟩
  have hend := uriTargetEnd_eq hfront hno (Or.inr ⟨t, ht⟩)
  have hcolon : colon ∉ joined trailing := by
    intro h
    rcases mem_joined h with h | ⟨s, hs, h⟩
    · exact absurd h (by decide)
    · exact (htrailing s hs).2.2 h
  have hlast := getLast?_keys front keys hn fun s hs => ⟨(htrailing s hs).1, (htrailing s hs).2.1⟩
  generalize hpath : front ++ joined ((keys ++ [n]).map (colon :: ·)) ++ joined trailing = path at *
  rw [List.append_assoc] at hpath
  have hhead : path.head? = some slash := by
    rw [← hpath, List.head?_append, hfront]
    rfl
  have hlen : front.length + 2 ≤ path.length := by
    rw [← hpath, ht]
    simp
  have hempty : path.isEmpty = false := by
    cases path with
    | nil => cases hhead
    | cons => rfl
  have hdrop : slash :: path.drop (front.length + 1) =
      joined ((keys ++ [n]).map (colon :: ·)) ++ joined trailing := by
    rw [← List.drop_drop, ← hpath, List.drop_left, ht]
    rfl
  have hbind := bindKeys_eq hdrop (Nat.le_add_left _ _) hkeys hn.2 hcolon hlast
  rw [hpath] at hend
  unfold make
  rw [dif_pos (startsWith_slash_iff.mpr hhead), if_neg (by simp [hempty])]
  have hlt : uriTargetEnd path < path.length := by omega
  refine ⟨_, rfl, ⟨?_, ?_, rfl, ?_⟩, ?_⟩
  · rw [List.append_assoc]
    exact hpath.symm
  · dsimp only
    rw [hend, substring_zero, ← hpath, List.take_left]
  · dsimp only
    rw [if_pos hlt, hend, hbind, names_keyParameters]
  · dsimp only
    rw [if_pos hlt, hend, hbind]

end Route

end Webcrown.Http
