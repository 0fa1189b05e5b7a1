import Webcrown.Http.Middlewares.RoutePatterns

/-!
# Values written over keys

The matcher writes each value over the first occurrence of its key, together with the
byte in front of it. Everything up to the key's own place takes part in the search:
the literals and the values written before.
-/

namespace Webcrown.Http

open Bytes Common

/-- The text with the values written over the keys one after the other. -/
def writeKeys (full : ByteString) : List (ByteString × ByteString) → Except OutOfRange ByteString
  | [] => .ok full
  | b :: bs =>
    match replaceKey full b.1 b.2 with
    | .error e => .error e
    | .ok full' => writeKeys full' bs

theorem bindValues_fst {target : ByteString} {it : ℕ} (ps : PathParameters) (full : ByteString)
    (h : it ≤ target.length) :
    (bindValues target ps it full).1 = writeKeys full
      ((ps.map RouteParameter.name).zip (segments ps.length (target.drop it))) := by
  induction ps generalizing it full with
  | nil => rfl
  | cons p ps ih =>
    obtain ⟨hvalue, -⟩ := findNextPathParameterValue_eq h
    obtain ⟨hit', hdrop⟩ := drop_behindValue h
    simp only [bindValues, List.map_cons, List.length_cons, segments, List.zip_cons_cons, writeKeys]
    rw [hvalue]
    cases replaceKey full p.name (nextSegment (target.drop it)) with
    | error e => rfl
    | ok full' =>
      dsimp only
      rw [ih full' hit', hdrop]

/-- Behind the text `x` stands the segment of the key `k`; the value `v` is written over the
first occurrence of the key and the byte in front of it, which makes `y` of them. -/
def Places (x k v y : ByteString) : Prop :=
  ∃ a c b, x ++ slash :: colon :: k = a ++ c :: (k ++ b) ∧
    find k (x ++ slash :: colon :: k) = some (a.length + 1) ∧ y = a ++ v ++ b

theorem replaceKey_ok_iff {x k v t full : ByteString} :
    replaceKey (x ++ slash :: colon :: k ++ t) k v = .ok full ↔
      ∃ y, Places x k v y ∧ full = y ++ t := by
  have hocc : k <:+: x ++ slash :: colon :: k := ⟨x ++ [slash, colon], [], by simp⟩
  obtain ⟨i, hi⟩ := exists_find_of_occurs hocc
  obtain ⟨⟨u, b, hub, hu⟩, -⟩ := find_spec hi
  unfold replaceKey
  rw [find_append_left hi]
  cases i with
  | zero =>
    apply iff_of_false (by simp)
    rintro ⟨y, ⟨a, c, b, -, hfind, -⟩, -⟩
    rw [hi, Option.some.injEq] at hfind
    omega
  | succ p =>
    obtain rfl | ⟨a, c, rfl⟩ := List.eq_nil_or_concat' u
    · cases hu
    have ha : a.length = p := by simpa using hu
    have hsplit : x ++ slash :: colon :: k = a ++ c :: (k ++ b) := by simpa using hub
    have hleft : (x ++ slash :: colon :: k ++ t).take p = a := by
      rw [hsplit, List.append_assoc, ← ha, List.take_left]
    have hright : (x ++ slash :: colon :: k ++ t).drop (p + k.length + 1) = b ++ t := by
      have hlen : p + k.length + 1 = (a ++ c :: k).length := by simp; omega
      rw [hlen, show x ++ slash :: colon :: k ++ t = a ++ c :: k ++ (b ++ t) by simp [hsplit],
        List.drop_left]
    dsimp only
    rw [hleft, hright, Except.ok.injEq]
    constructor
    · rintro rfl
      exact ⟨a ++ v ++ b, ⟨a, c, b, hsplit, by rw [hi, ha], rfl⟩, by simp⟩
    · rintro ⟨y, ⟨a', c', b', hsplit', hfind, rfl⟩, rfl⟩
      rw [hi, Option.some.injEq] at hfind
      obtain ⟨rfl, hrest⟩ := List.append_inj (hsplit.symm.trans hsplit') (by omega)
      obtain rfl := List.append_cancel_left (List.cons.inj hrest).2
      simp

theorem Places.unique {x k v y y' : ByteString} (h : Places x k v y) (h' : Places x k v y') :
    y = y' := by
  have hy := replaceKey_ok_iff (t := []).mpr ⟨y, h, rfl⟩
  have hy' := replaceKey_ok_iff (t := []).mpr ⟨y', h', rfl⟩
  rw [hy, Except.ok.injEq] at hy'
  exact List.append_cancel_right hy'

/-- `y` comes from `x` and the segments of the keys behind it. -/
def Rewrites : ByteString → List (ByteString × ByteString) → ByteString → Prop
  | x, [], y => y = x
  | x, b :: bs, y => ∃ w, Places x b.1 b.2 w ∧ Rewrites w bs y

theorem writeKeys_ok_iff {x t full : ByteString} {bs : List (ByteString × ByteString)} :
    writeKeys (x ++ joined (bs.map fun b => colon :: b.1) ++ t) bs = .ok full ↔
      ∃ y, Rewrites x bs y ∧ full = y ++ t := by
  induction bs generalizing x full with
  | nil => simp [writeKeys, Rewrites, eq_comm]
  | cons b bs ih =>
    have hfull : x ++ joined ((b :: bs).map fun b => colon :: b.1) ++ t =
        x ++ slash :: colon :: b.1 ++ (joined (bs.map fun b => colon :: b.1) ++ t) := by simp
    rw [hfull, writeKeys]
    cases hkey : replaceKey (x ++ slash :: colon :: b.1 ++
        (joined (bs.map fun b => colon :: b.1) ++ t)) b.1 b.2 with
    | error e =>
      apply iff_of_false (by simp)
      rintro ⟨y, ⟨w, hw, -⟩, -⟩
      have hok := replaceKey_ok_iff (t := joined (bs.map fun b => colon :: b.1) ++ t).mpr
        ⟨w, hw, rfl⟩
      rw [hkey] at hok
      cases hok
    | ok full' =>
      obtain ⟨w, hw, rfl⟩ := replaceKey_ok_iff.mp hkey
      dsimp only
      rw [← List.append_assoc, ih]
      constructor
      · rintro ⟨y, hy, rfl⟩
        exact ⟨y, ⟨w, hw, hy⟩, rfl⟩
      · rintro ⟨y, ⟨w', hw', hy⟩, rfl⟩
        have hok := replaceKey_ok_iff (t := joined (bs.map fun b => colon :: b.1) ++ t).mpr
          ⟨w', hw', rfl⟩
        rw [hkey, Except.ok.injEq] at hok
        exact ⟨y, List.append_cancel_right hok ▸ hy, rfl⟩

section Measures

variable {x y k v : ByteString} {bs cs : List (ByteString × ByteString)}

theorem Places.length (h : Places x k v y) : y.length = x.length + (v.length + 1) := by
  obtain ⟨a, c, b, hsplit, -, rfl⟩ := h
  have hlen := congrArg List.length hsplit
  simp only [List.length_append, List.length_cons] at hlen ⊢
  omega

theorem Rewrites.length (h : Rewrites x bs y) :
    y.length = x.length + (joined (bs.map Prod.snd)).length := by
  induction bs generalizing x with
  | nil =>
    obtain rfl : y = x := h
    rfl
  | cons b bs ih =>
    obtain ⟨w, hw, hrest⟩ := h
    have hb := hw.length
    have hy := ih hrest
    simp only [List.map_cons, joined_cons, List.length_cons, List.length_append]
    omega

/-- The byte that a value is written over together with the key is lost. -/
theorem Places.count (h : Places x k v y) :
    x.count colon + v.count colon ≤ y.count colon ∧
      (y.count colon ≤ x.count colon + v.count colon →
        ∃ a b, x ++ slash :: colon :: k = a ++ colon :: (k ++ b) ∧
          find k (x ++ slash :: colon :: k) = some (a.length + 1) ∧ y = a ++ v ++ b) := by
  obtain ⟨a, c, b, hsplit, hfind, rfl⟩ := h
  have hcount := congrArg (List.count colon) hsplit
  have hslash : (slash == colon) = false := by decide
  simp only [List.count_append, List.count_cons, beq_self_eq_true, if_true, hslash,
    Bool.false_eq_true, if_false] at hcount ⊢
  refine ⟨by split_ifs at hcount <;> omega, fun hle => ?_⟩
  have hc : c = colon := by
    by_contra hc
    rw [if_neg (by simpa using hc)] at hcount
    omega
  exact ⟨a, b, by rw [hsplit, hc], hfind, rfl⟩

theorem Rewrites.count (h : Rewrites x bs y) :
    x.count colon + (joined (bs.map Prod.snd)).count colon ≤ y.count colon := by
  induction bs generalizing x with
  | nil =>
    obtain rfl : y = x := h
    simp
  | cons b bs ih =>
    obtain ⟨w, hw, hrest⟩ := h
    have hb := hw.count.1
    have hy := ih hrest
    have hslash : (slash == colon) = false := by decide
    simp only [List.map_cons, joined_cons, List.count_cons, List.count_append, hslash,
      Bool.false_eq_true, if_false]
    omega

theorem rewrites_append : Rewrites x (bs ++ cs) y ↔ ∃ w, Rewrites x bs w ∧ Rewrites w cs y := by
  induction bs generalizing x with
  | nil => simp [Rewrites]
  | cons b bs ih =>
    simp only [List.cons_append, Rewrites, ih]
    constructor
    · rintro ⟨u, hu, w, hw, hy⟩
      exact ⟨w, ⟨u, hu, hw⟩, hy⟩
    · rintro ⟨w, ⟨u, hu, hw⟩, hy⟩
      exact ⟨u, hu, w, hw, hy⟩

end Measures

section Lost

variable {front x y k v : ByteString} {bs : List (ByteString × ByteString)}

theorem startsWith_of_colon {a t : ByteString} (hcolon : colon ∉ front) (hx : front <+: x)
    (h : x ++ slash :: colon :: k = a ++ colon :: t) : front <+: a := by
  obtain ⟨z, rfl⟩ := hx
  rw [List.append_assoc] at h
  rcases List.append_eq_append_iff.mp h with ⟨u, ha, -⟩ | ⟨u, hfront, hu⟩
  · exact ⟨u, ha.symm⟩
  · cases u with
    | nil => simp [hfront]
    | cons c u =>
      rw [List.cons_append, List.cons.injEq] at hu
      exact absurd (by simp [hfront, hu.1]) hcolon

/-- Where no `:` is lost, no key is one that occurs in the text in front of all parameters or
consists of colons. -/
theorem Rewrites.keys_found (hcolon : colon ∉ front) (hx : front <+: x) (h : Rewrites x bs y)
    (hcount : y.count colon ≤ x.count colon + (joined (bs.map Prod.snd)).count colon) :
    ∀ b ∈ bs, ¬ b.1 <:+: front ∧ ¬ ∀ c ∈ b.1, c = colon := by
  induction bs generalizing x with
  | nil => simp
  | cons b bs ih =>
    obtain ⟨w, hw, hrest⟩ := h
    have hslash : (slash == colon) = false := by decide
    simp only [List.map_cons, joined_cons, List.count_cons, List.count_append, hslash,
      Bool.false_eq_true, if_false] at hcount
    have hle := hrest.count
    obtain ⟨a, e, hsplit, hfind, rfl⟩ := hw.count.2 (by omega)
    have ha := startsWith_of_colon hcolon hx hsplit
    have hmin := (find_spec hfind).2
    intro b' hb'
    rcases List.mem_cons.mp hb' with rfl | hb'
    · constructor
      · rintro ⟨u, w, huw⟩
        obtain ⟨z, rfl⟩ := ha
        obtain ⟨t, ht⟩ := hx
        have hlt : u.length < (front ++ z).length + 1 := by
          rw [← huw]
          simp only [List.length_append]
          omega
        apply hmin u.length hlt
        rw [← ht, ← huw, List.append_assoc, List.append_assoc, List.append_assoc, List.drop_left]
        exact List.prefix_append _ _
      · intro hall
        apply hmin a.length (Nat.lt_succ_self _)
        rw [hsplit, List.drop_left, List.eq_replicate_of_mem hall]
        exact ⟨colon :: e, by rw [← List.cons_append, ← List.replicate_succ,
          List.replicate_succ', List.append_assoc, List.singleton_append]⟩
    · refine ih (ha.trans ?_) hrest ?_ b' hb'
      · rw [List.append_assoc]
        exact List.prefix_append _ _
      · have := hw.count.1
        omega

end Lost

section Stands

variable {x y k v : ByteString} {bs cs : List (ByteString × ByteString)}

/-- The search for the key `k` behind the text `x` ends at the key's own place, or behind
another `:`, where the value is the segment of the key and changes nothing. -/
def Stands (x k v : ByteString) : Prop :=
  find k (x ++ slash :: colon :: k) = some (x.length + 2) ∨
    v = colon :: k ∧ ∃ i, find k (x ++ slash :: colon :: k) = some (i + 1) ∧
      (x ++ slash :: colon :: k)[i]? = some colon

theorem find_own {x n : ByteString} (hne : n ≠ []) (hslash : slash ∉ n) (hcolon : colon ∉ n)
    (hx : ¬ n <:+: x) : find n (x ++ slash :: colon :: n) = some (x.length + 2) := by
  obtain ⟨c, n, rfl⟩ := List.exists_cons_of_ne_nil hne
  have hc : c ∉ [colon] := by
    rw [List.mem_singleton]
    rintro rfl
    exact hcolon (by simp)
  have hown : find (c :: n) ([colon] ++ (c :: n) ++ []) = some [colon].length :=
    find_append_of_head rfl hc
  rw [List.append_nil, List.singleton_append] at hown
  rw [find_append_cons hne hslash hx, hown, Option.map_some, List.length_singleton]
  congr 1
  omega

/-- Each key stands, with the values of the ones before it in the text. -/
def AllStand : ByteString → List (ByteString × ByteString) → Prop
  | _, [] => True
  | x, b :: bs => Stands x b.1 b.2 ∧ AllStand (x ++ slash :: b.2) bs

theorem allStand_append :
    AllStand x (bs ++ cs) ↔ AllStand x bs ∧ AllStand (x ++ joined (bs.map Prod.snd)) cs := by
  induction bs generalizing x with
  | nil => simp [AllStand]
  | cons b bs ih =>
    have hassoc : x ++ slash :: b.2 ++ joined (bs.map Prod.snd) =
        x ++ joined ((b :: bs).map Prod.snd) := by simp
    rw [List.cons_append, AllStand, AllStand, ih, hassoc, and_assoc]

theorem Stands.places (h : Stands x k v) : Places x k v (x ++ slash :: v) := by
  rcases h with hfind | ⟨rfl, i, hfind, hi⟩
  · exact ⟨x ++ [slash], colon, [], by simp, by simpa using hfind, by simp⟩
  · obtain ⟨⟨u, b, hub, hu⟩, -⟩ := find_spec hfind
    obtain rfl | ⟨a, c, rfl⟩ := List.eq_nil_or_concat' u
    · cases hu
    have ha : a.length = i := by simpa using hu
    have hc : c = colon := by
      rw [hub, ← ha] at hi
      simpa using hi
    have hsplit : x ++ slash :: colon :: k = a ++ colon :: (k ++ b) := by simpa [hc] using hub
    exact ⟨a, colon, b, hsplit, by rw [hfind, ha], by simp [hsplit]⟩

theorem AllStand.rewrites (h : AllStand x bs) : Rewrites x bs (x ++ joined (bs.map Prod.snd)) := by
  induction bs generalizing x with
  | nil => simp [Rewrites]
  | cons b bs ih =>
    have hrest := ih h.2
    exact ⟨x ++ slash :: b.2, h.1.places, by simpa using hrest⟩

theorem append_slash_inj {s t s' t' : ByteString} (ht : slash ∉ t) (ht' : slash ∉ t')
    (h : s ++ slash :: t = s' ++ slash :: t') : s = s' ∧ t = t' := by
  rcases List.append_eq_append_iff.mp h with ⟨w, hs', hw⟩ | ⟨w, hs, hw⟩
  · cases w with
    | nil => simp_all
    | cons c w =>
      rw [List.cons_append, List.cons.injEq] at hw
      exact absurd (by simp [hw.2]) ht
  · cases w with
    | nil => simp_all
    | cons c w =>
      rw [List.cons_append, List.cons.injEq] at hw
      exact absurd (by simp [hw.2]) ht'

theorem key_occurrence {w k a e : ByteString} (hk : slash ∉ k)
    (h : w ++ slash :: colon :: k = a ++ colon :: (k ++ e)) :
    (e = [] ∧ a = w ++ [slash]) ∨
      ∃ u, w = a ++ colon :: k ++ u ∧ e = u ++ slash :: colon :: k := by
  have hk' : slash ∉ colon :: k := List.not_mem_cons_of_ne_of_not_mem (by decide) hk
  have h' : w ++ slash :: colon :: k = (a ++ colon :: k) ++ e := by simpa using h
  rcases List.append_eq_append_iff.mp h' with ⟨u, hw, hu⟩ | ⟨u, hw, he⟩
  · cases u with
    | nil => exact Or.inr ⟨[], by simpa using hw.symm, by simpa using hu.symm⟩
    | cons s u =>
      -- the slash in front of the key's place stands in `a`
      rw [List.cons_append, List.cons.injEq] at hu
      obtain ⟨rfl, hu⟩ := hu
      left
      rcases List.append_eq_append_iff.mp hw with ⟨z, -, hz⟩ | ⟨z, ha, hz⟩
      · exact absurd (by simp [hz]) hk'
      · cases z with
        | nil => exact absurd (List.cons.inj hz).1 (by decide)
        | cons s z =>
          rw [List.cons_append, List.cons.injEq] at hz
          obtain ⟨rfl, hz⟩ := hz
          have hlen := congrArg List.length hu
          rw [hz] at hlen
          simp only [List.length_cons, List.length_append] at hlen
          have hz' : z = [] := List.eq_nil_of_length_eq_zero (by omega)
          exact ⟨List.eq_nil_of_length_eq_zero (by omega), by rw [ha, hz']⟩
  · exact Or.inr ⟨u, hw, he⟩

/-- Keys and values of one segment: a text that comes out as if each value had been written
at the place of its key comes about in no other way. The last step is undone first, as it
alone leaves the last segment. -/
theorem Rewrites.allStand (hbs : ∀ b ∈ bs, slash ∉ b.1 ∧ slash ∉ b.2)
    (h : Rewrites x bs (x ++ joined (bs.map Prod.snd))) : AllStand x bs := by
  induction bs using List.reverseRecOn with
  | nil => trivial
  | append_singleton bs b ih =>
    obtain ⟨w, hw, y, hy, rfl⟩ := rewrites_append.mp h
    have hlast : x ++ joined ((bs ++ [b]).map Prod.snd) =
        x ++ joined (bs.map Prod.snd) ++ slash :: b.2 := by simp
    rw [hlast] at hy
    obtain ⟨hk, hv⟩ := hbs b (by simp)
    have hcount : (x ++ joined (bs.map Prod.snd) ++ slash :: b.2).count colon ≤
        w.count colon + b.2.count colon := by
      have hslash : (slash == colon) = false := by decide
      have := hw.count
      simp only [List.count_append, List.count_cons, hslash, Bool.false_eq_true, if_false]
      omega
    obtain ⟨a, e, hsplit, hfind, htext⟩ := hy.count.2 hcount
    have hstep : w = x ++ joined (bs.map Prod.snd) ∧ Stands w b.1 b.2 := by
      rcases key_occurrence hk hsplit with ⟨rfl, rfl⟩ | ⟨u, hw', rfl⟩
      · have htext' : x ++ joined (bs.map Prod.snd) ++ slash :: b.2 = w ++ slash :: b.2 := by
          simpa using htext
        exact ⟨(List.append_cancel_right htext').symm, Or.inl (by simpa using hfind)⟩
      · have htext' : x ++ joined (bs.map Prod.snd) ++ slash :: b.2 =
            a ++ b.2 ++ u ++ slash :: colon :: b.1 := by simpa using htext
        obtain ⟨hfront, hvalue⟩ := append_slash_inj hv
          (List.not_mem_cons_of_ne_of_not_mem (by decide) hk) htext'
        refine ⟨by rw [hfront, hw', hvalue], Or.inr ⟨hvalue, a.length, hfind, ?_⟩⟩
        rw [hsplit]
        simp
    rw [allStand_append]
    refine ⟨ih (fun b' hb' => hbs b' (by simp [hb'])) (hstep.1 ▸ hw), ?_, trivial⟩
    exact hstep.1 ▸ hstep.2

end Stands

namespace Route

variable {r : Route} {method method' : HttpMethod} {front behind target : ByteString}
  {keys : List ByteString}

theorem isMatch_true_of_not_binds (h : ∀ rest, ¬ r.Binds target method' rest) :
    (r.isMatchWithTargetRequest target method').1 = .ok true ↔
      method' = r.method ∧ target = r.uriTarget := by
  constructor
  · intro hmatch
    unfold isMatchWithTargetRequest at hmatch
    split_ifs at hmatch with hslash hempty hmethod htarget
    · simp at hmatch
    · simp at hmatch
    · simp at hmatch
    · exact ⟨by simpa using hmethod, htarget⟩
    · cases hfind : findBindingTarget target r.uriTarget target.length 0 with
      | none => simp [hfind] at hmatch
      | some j =>
        obtain ⟨-, heven, rest, hrest⟩ := findBindingTarget_iff.mp hfind
        exact absurd ⟨by simpa using hmethod, hrest, heven⟩ (h rest)
  · rintro ⟨rfl, rfl⟩
    rw [isMatch_uriTarget]

theorem Reads.isMatch_iff (hr : r.Reads method front keys behind)
    (heven : Even (trailingSlashes front)) :
    (r.isMatchWithTargetRequest target method').1 = .ok true ↔
      method' = method ∧ (target = front ∨ ∃ rest y, target = front ++ slash :: rest ∧
        Rewrites front (keys.zip (segments keys.length rest)) y ∧ target = y ++ behind) := by
  by_cases hbinds : ∃ rest, r.Binds target method' rest
  · obtain ⟨rest, hb⟩ := hbinds
    have htarget : target = front ++ slash :: rest := hr.uriTarget ▸ hb.target_eq
    have hne : target ≠ front := by
      rw [htarget]
      simp
    have hle : r.uriTarget.length + 1 ≤ target.length := by
      rw [hb.target_eq]
      simp
    have hdrop : target.drop (r.uriTarget.length + 1) = rest := by
      rw [hb.target_eq, ← List.drop_drop, List.drop_left]
      rfl
    have hcount : r.pathParameters.length = keys.length := by rw [← hr.names, List.length_map]
    have hpath : r.path = front ++ joined ((keys.zip (segments keys.length rest)).map
        fun b => colon :: b.1) ++ behind := by
      have hkeys : (keys.zip (segments keys.length rest)).map (fun b => colon :: b.1) =
          keys.map (colon :: ·) := by
        conv_rhs => rw [← List.map_fst_zip (length_segments keys.length rest).ge]
        rw [List.map_map]
        rfl
      rw [hr.path, hkeys]
    rw [isMatch_of_binds hb]
    dsimp only
    rw [bindValues_fst _ _ hle, hr.names, hdrop, hcount, hpath]
    constructor
    · intro hmatch
      cases hfull : writeKeys (front ++ joined ((keys.zip (segments keys.length rest)).map
          fun b => colon :: b.1) ++ behind) (keys.zip (segments keys.length rest)) with
      | error e =>
        rw [hfull] at hmatch
        cases hmatch
      | ok full =>
        rw [hfull] at hmatch
        obtain ⟨y, hy, rfl⟩ := writeKeys_ok_iff.mp hfull
        simp only [Except.map, Except.ok.injEq, beq_iff_eq] at hmatch
        exact ⟨hb.method_eq.trans hr.method, Or.inr ⟨rest, y, htarget, hy, hmatch⟩⟩
    · rintro ⟨-, h | ⟨rest', y, h, hy, hend⟩⟩
      · exact absurd h hne
      · obtain ⟨-, rfl⟩ := List.cons.inj (List.append_cancel_left (h.symm.trans htarget))
        rw [writeKeys_ok_iff.mpr ⟨y, hy, hend⟩]
        simp [Except.map]
  · rw [isMatch_true_of_not_binds fun rest h => hbinds ⟨rest, h⟩, hr.method, hr.uriTarget]
    refine and_congr_right fun hmethod => ⟨Or.inl, ?_⟩
    rintro (h | ⟨rest, y, h, -, -⟩)
    · exact h
    · exact absurd ⟨rest, hmethod.trans hr.method.symm, hr.uriTarget ▸ h, hr.uriTarget ▸ heven⟩
        hbinds

theorem Reads.target_of_isMatch (hr : r.Reads method front keys behind)
    (heven : Even (trailingSlashes front)) (hkeys : keys ≠ [])
    (hmatch : (r.isMatchWithTargetRequest target method').1 = .ok true) :
    method' = method ∧ (target = front ∨ ∃ vs, vs.length = keys.length ∧ (∀ v ∈ vs, slash ∉ v) ∧
      Rewrites front (keys.zip vs) (front ++ joined vs) ∧
      target = front ++ joined vs ++ behind) := by
  obtain ⟨hmethod, h⟩ := (hr.isMatch_iff heven).mp hmatch
  refine ⟨hmethod, h.imp_right ?_⟩
  rintro ⟨rest, y, htarget, hy, hend⟩
  obtain ⟨n, hn⟩ : ∃ n, keys.length = n + 1 :=
    ⟨keys.length - 1, by have := List.length_pos_iff.mpr hkeys; omega⟩
  have hsnd : (keys.zip (segments keys.length rest)).map Prod.snd = segments keys.length rest :=
    List.map_snd_zip (length_segments _ _).le
  have hylen := hy.length
  rw [hsnd] at hylen
  have hlen := congrArg List.length (htarget.symm.trans hend)
  simp only [List.length_append, List.length_cons] at hlen
  -- both ways to count the target leave the same room behind the segments
  rcases joined_segments n rest with ⟨u, hu⟩ | hlt
  · rw [← hn] at hu
    have hulen := congrArg List.length hu
    simp only [List.length_append, List.length_cons] at hulen
    have htext : y ++ behind = front ++ joined (segments keys.length rest) ++ u := by
      rw [← hend, htarget, hu, List.append_assoc]
    obtain ⟨rfl, rfl⟩ := List.append_inj htext (by rw [List.length_append]; omega)
    exact ⟨segments keys.length rest, length_segments _ _, slash_notMem_segments rest, hy, hend⟩
  · rw [← hn, List.length_cons] at hlt
    omega

theorem Reads.isMatch_of_allStand (hr : r.Reads method front keys behind)
    (heven : Even (trailingSlashes front)) (hkeys : keys ≠ []) {vs : List ByteString}
    (hlen : vs.length = keys.length) (hvs : ∀ v ∈ vs, slash ∉ v)
    (hbehind : ∀ c, behind.head? = some c → c = slash) (hall : AllStand front (keys.zip vs)) :
    (r.isMatchWithTargetRequest (front ++ joined vs ++ behind) method).1 = .ok true := by
  obtain ⟨v, vs, rfl⟩ : ∃ v us, vs = v :: us := by
    cases vs with
    | nil => exact absurd (List.eq_nil_of_length_eq_zero hlen.symm) hkeys
    | cons v us => exact ⟨v, us, rfl⟩
  have hsegments := segments_joined hvs hbehind
  rw [hlen, joined_cons, List.cons_append, List.tail_cons] at hsegments
  have hy := hall.rewrites
  rw [List.map_snd_zip hlen.le] at hy
  refine (hr.isMatch_iff heven).mpr ⟨rfl, Or.inr ⟨v ++ joined vs ++ behind, _, ?_, ?_, rfl⟩⟩
  · simp
  · rwa [hsegments]

theorem Reads.values (hr : r.Reads method front keys behind)
    (heven : Even (trailingSlashes front)) {rest : ByteString}
    (htarget : target = front ++ slash :: rest)
    (hmatch : (r.isMatchWithTargetRequest target method).1 = .ok true) :
    (r.isMatchWithTargetRequest target method).2.pathParameters.map (fun p => (p.name, p.value)) =
      keys.zip (segments keys.length rest) := by
  have hb : r.Binds target method rest :=
    ⟨hr.method.symm, hr.uriTarget ▸ htarget, hr.uriTarget ▸ heven⟩
  have hle : r.uriTarget.length + 1 ≤ target.length := by
    rw [hb.target_eq]
    simp
  have hdrop : target.drop (r.uriTarget.length + 1) = rest := by
    rw [hb.target_eq, ← List.drop_drop, List.drop_left]
    rfl
  rw [isMatch_of_binds hb] at hmatch ⊢
  dsimp only at hmatch ⊢
  cases hfull : (bindValues target r.pathParameters (r.uriTarget.length + 1) r.path).1 with
  | error e => simp [hfull, Except.map] at hmatch
  | ok full =>
    have hvalues := bindValues_values r.pathParameters r.path hle hfull
    have hnames := congrArg (List.map Prod.fst)
      (key_bindValues target r.pathParameters (r.uriTarget.length + 1) r.path)
    simp only [List.map_map] at hnames
    rw [← List.zip_map', hvalues, hdrop]
    have hcount : r.pathParameters.length = keys.length := by rw [← hr.names, List.length_map]
    rw [hcount, ← hr.names]
    exact congrArg (List.zip · _) hnames

end Route

end Webcrown.Http
