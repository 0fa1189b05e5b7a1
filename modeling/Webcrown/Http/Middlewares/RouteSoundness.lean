import Webcrown.Http.Middlewares.RouteLanguage
import Webcrown.Http.Middlewares.RouteCompleteness

/-!
# What an accepted target looks like

An accepted target consists of the leading literals of the pattern, a segment for each
parameter and the literals behind the last one; or of the leading literals alone.
Literals between two parameters are parts of a key, and a value is written over them.
-/

namespace Webcrown.Http

open Bytes Common

inductive Segment
  | literal (text : ByteString)
  | parameter (name : ByteString)
  deriving DecidableEq

namespace Segment

def text : Segment → ByteString
  | literal s => s
  | parameter n => colon :: n

def name? : Segment → Option ByteString
  | literal _ => none
  | parameter n => some n

def WellFormed : Segment → Prop
  | literal s => Literal s
  | parameter n => n ≠ [] ∧ slash ∉ n

instance (s : Segment) : Decidable s.WellFormed :=
  match s with
  | literal s => inferInstanceAs (Decidable (Literal s))
  | parameter n => inferInstanceAs (Decidable (n ≠ [] ∧ slash ∉ n))

/-- A literal segment stands for itself, a parameter for any segment. -/
def Agrees : Segment → ByteString → Prop
  | literal s, t => t = s
  | parameter _, _ => True

end Segment

/-- The leading literals, and the parameters with the literals behind each. -/
def cut : List Segment → List ByteString × List (ByteString × List ByteString)
  | [] => ([], [])
  | .literal s :: segs => (s :: (cut segs).1, (cut segs).2)
  | .parameter n :: segs => ([], (n, (cut segs).1) :: (cut segs).2)

/-- A pattern that begins with a literal and names each parameter differently. -/
structure Pattern where
  segs : List Segment
  wellFormed : ∀ s ∈ segs, s.WellFormed
  distinct : (segs.filterMap Segment.name?).Nodup
  literal_head : (cut segs).1 ≠ []

namespace Pattern

variable (p : Pattern)

def path : ByteString := joined (p.segs.map Segment.text)

def lead : List ByteString := (cut p.segs).1

def parameters : List (ByteString × List ByteString) := (cut p.segs).2

def between : List ByteString := p.parameters.dropLast.flatMap Prod.snd

def trailing : List ByteString := p.parameters.getLast?.toList.flatMap Prod.snd

/-- The name of each parameter with the literals up to the next one. -/
def keys : List ByteString :=
  p.parameters.dropLast.map (fun g => g.1 ++ joined g.2) ++
    p.parameters.getLast?.toList.map Prod.fst

/-- If the target is accepted, it has the segments of the pattern, the literal ones as they
stand there. -/
def SoundAt (r : Route) (target : ByteString) (method : HttpMethod) : Prop :=
  (r.isMatchWithTargetRequest target method).1 = .ok true →
    ∃ ts, target = joined ts ∧ (∀ t ∈ ts, slash ∉ t) ∧ List.Forall₂ Segment.Agrees p.segs ts

/-- A key is never found at its place: it occurs in the leading literals, or it consists of
colons, and is found with the one that marks the parameter. -/
def LosesKey : Prop := ∃ k ∈ p.keys, k <:+: joined p.lead ∨ ∀ c ∈ k, c = colon

end Pattern

section Cut

theorem length_cut (segs : List Segment) :
    segs.length = (cut segs).1.length + (cut segs).2.length +
      ((cut segs).2.flatMap Prod.snd).length := by
  induction segs with
  | nil => rfl
  | cons s segs ih =>
    cases s with
    | literal s =>
      simp only [cut, List.length_cons]
      omega
    | parameter n =>
      simp only [cut, List.length_cons, List.flatMap_cons, List.length_append, List.length_nil]
      omega

theorem text_cut (segs : List Segment) :
    joined (segs.map Segment.text) = joined (cut segs).1 ++
      (cut segs).2.flatMap fun g => joined ((colon :: g.1) :: g.2) := by
  induction segs with
  | nil => rfl
  | cons s segs ih =>
    cases s with
    | literal s =>
      simp only [List.map_cons, joined_cons, Segment.text, cut, ih, List.cons_append,
        List.append_assoc]
    | parameter n =>
      simp only [List.map_cons, joined_cons, Segment.text, cut, ih, joined_nil, List.nil_append,
        List.flatMap_cons, List.cons_append, List.append_assoc]

theorem wellFormed_cut {segs : List Segment} (h : ∀ s ∈ segs, s.WellFormed) :
    (∀ s ∈ (cut segs).1, Literal s) ∧
      ∀ g ∈ (cut segs).2, (g.1 ≠ [] ∧ slash ∉ g.1) ∧ ∀ s ∈ g.2, Literal s := by
  induction segs with
  | nil => simp [cut]
  | cons s segs ih =>
    obtain ⟨hlead, hgroups⟩ := ih fun s' hs' => h s' (by simp [hs'])
    have hs := h s (by simp)
    cases s with
    | literal s =>
      refine ⟨fun t ht => ?_, hgroups⟩
      rcases List.mem_cons.mp ht with rfl | ht
      · exact hs
      · exact hlead t ht
    | parameter n =>
      refine ⟨by simp [cut], fun g hg => ?_⟩
      rcases List.mem_cons.mp hg with rfl | hg
      · exact ⟨hs, hlead⟩
      · exact hgroups g hg

theorem agrees_cut {segs : List Segment} {vs : List ByteString}
    (hbetween : (cut segs).2.dropLast.flatMap Prod.snd = [])
    (hlen : vs.length = (cut segs).2.length) :
    List.Forall₂ Segment.Agrees segs
      ((cut segs).1 ++ vs ++ (cut segs).2.getLast?.toList.flatMap Prod.snd) := by
  induction segs generalizing vs with
  | nil =>
    obtain rfl := List.eq_nil_of_length_eq_zero hlen
    exact List.Forall₂.nil
  | cons s segs ih =>
    cases s with
    | literal s => exact List.Forall₂.cons rfl (ih hbetween hlen)
    | parameter n =>
      obtain ⟨v, vs, rfl⟩ : ∃ v us, vs = v :: us := by
        cases vs with
        | nil => cases hlen
        | cons v us => exact ⟨v, us, rfl⟩
      have hlen' : vs.length = (cut segs).2.length := by simpa [cut] using hlen
      simp only [cut] at hbetween ⊢
      cases hgroups : (cut segs).2 with
      | nil =>
        rw [hgroups] at hlen'
        obtain rfl := List.eq_nil_of_length_eq_zero hlen'
        have hrest : List.Forall₂ Segment.Agrees segs
            ((cut segs).1 ++ [] ++ (cut segs).2.getLast?.toList.flatMap Prod.snd) :=
          ih (by simp [hgroups]) (by simp [hgroups])
        simp only [hgroups] at hrest
        apply List.Forall₂.cons trivial
        simpa using hrest
      | cons g gs =>
        rw [hgroups, List.dropLast_cons_cons, List.flatMap_cons, List.append_eq_nil_iff]
          at hbetween
        have hrest := ih (by rw [hgroups]; exact hbetween.2) hlen'
        rw [hgroups] at hrest
        apply List.Forall₂.cons trivial
        have hnil : (cut segs).1 = [] := hbetween.1
        simpa [hnil] using hrest

end Cut

section EmptyValues

variable {front k n : ByteString} {segs : List ByteString}

/-- Behind each slash of a key stands the first byte of a literal. -/
theorem behind_slash_of_key {f t : ByteString} (hn : slash ∉ n) (hsegs : ∀ s ∈ segs, Literal s)
    (h : n ++ joined segs = f ++ slash :: t) : ∃ c u, t = c :: u ∧ c ≠ slash ∧ c ≠ colon := by
  induction segs generalizing n f with
  | nil =>
    rw [joined_nil, List.append_nil] at h
    exact absurd (by simp [h]) hn
  | cons s segs ih =>
    obtain ⟨hne, hslash, hcolon⟩ := hsegs s (by simp)
    rw [joined_cons] at h
    have hfirst : t = s ++ joined segs → ∃ c u, t = c :: u ∧ c ≠ slash ∧ c ≠ colon := by
      rintro rfl
      obtain ⟨c, s, rfl⟩ := List.exists_cons_of_ne_nil hne
      refine ⟨c, s ++ joined segs, rfl, ?_, ?_⟩
      · rintro rfl
        exact hslash (by simp)
      · rintro rfl
        exact hcolon (by simp)
    rcases List.append_eq_append_iff.mp h with ⟨g, -, hg⟩ | ⟨g, hf, hg⟩
    · cases g with
      | nil => exact hfirst (List.cons.inj hg).2.symm
      | cons c g =>
        rw [List.cons_append, List.cons.injEq] at hg
        exact ih hslash (fun t ht => hsegs t (by simp [ht])) hg.2
    · cases g with
      | nil => exact hfirst (List.cons.inj hg).2
      | cons c g =>
        rw [List.cons_append, List.cons.injEq] at hg
        exact absurd (by simp [hf, hg.1]) hn

theorem eq_of_prefix_cons {c : UInt8} (h : k <+: c :: k) : ∀ d ∈ k, d = c := by
  induction k with
  | nil => simp
  | cons d k ih =>
    rw [List.cons_prefix_cons] at h
    obtain ⟨rfl, h⟩ := h
    intro e he
    rcases List.mem_cons.mp he with rfl | he
    · rfl
    · exact ih h e he

theorem find_behind_slashes (hn : n ≠ [] ∧ slash ∉ n) (hsegs : ∀ s ∈ segs, Literal s)
    (hk : k = n ++ joined segs) (hfront : ¬ k <:+: front) (hcolons : ¬ ∀ c ∈ k, c = colon) (i : ℕ) :
    find k (front ++ List.replicate i slash ++ slash :: colon :: k) =
      some ((front ++ List.replicate i slash).length + 2) := by
  have hsplit : front ++ List.replicate i slash ++ slash :: colon :: k =
      (front ++ List.replicate i slash ++ [slash, colon]) ++ k ++ [] := by simp
  have hlen : (front ++ List.replicate i slash ++ [slash, colon]).length =
      (front ++ List.replicate i slash).length + 2 := by
    rw [List.length_append]
    rfl
  rw [← hlen]
  apply find_eq_some hsplit
  intro j hj hpre
  rw [hlen, List.length_append, List.length_replicate] at hj
  rw [List.append_assoc] at hpre
  rcases Nat.lt_or_ge j front.length with hlt | hge
  · -- an occurrence that begins in the literals ends there
    obtain ⟨c, u, hrest, hc⟩ : ∃ c u, List.replicate i slash ++ slash :: colon :: k =
        slash :: c :: u ∧ (c = slash ∨ c = colon) := by
      match i with
      | 0 => exact ⟨colon, k, rfl, Or.inr rfl⟩
      | 1 => exact ⟨slash, colon :: k, rfl, Or.inl rfl⟩
      | i + 2 => exact ⟨slash, _, rfl, Or.inl rfl⟩
    rw [hrest, List.drop_append_of_le_length hlt.le] at hpre
    obtain ⟨z, hz⟩ := hpre
    have hinfix : ∀ a, front.drop j = k ++ a → False := by
      intro a ha
      exact hfront ⟨front.take j, a, by rw [List.append_assoc, ← ha, List.take_append_drop]⟩
    rcases List.append_eq_append_iff.mp hz with ⟨a, ha, -⟩ | ⟨t, ht, hu⟩
    · exact hinfix a ha
    · cases t with
      | nil => exact hinfix [] (by rw [List.append_nil, ht, List.append_nil])
      | cons s t =>
        rw [List.cons_append, List.cons.injEq] at hu
        obtain ⟨rfl, hu⟩ := hu
        obtain ⟨d, t, rfl, hslash, hcolon⟩ := behind_slash_of_key hn.2 hsegs (hk.symm.trans ht)
        rw [List.cons_append, List.cons.injEq] at hu
        rcases hc with rfl | rfl
        · exact hslash hu.1.symm
        · exact hcolon hu.1.symm
  · have hrest : List.replicate i slash ++ slash :: colon :: k =
        List.replicate (i + 1) slash ++ colon :: k := by simp [List.replicate_succ']
    obtain ⟨m, rfl⟩ := Nat.exists_eq_add_of_le hge
    rw [hrest, ← List.drop_drop, List.drop_left] at hpre
    rcases Nat.lt_or_ge m (i + 1) with hm | hm
    · -- no key begins with a slash
      obtain ⟨z, hz⟩ := hpre
      obtain ⟨c, n, rfl⟩ := List.exists_cons_of_ne_nil hn.1
      rw [List.drop_append_of_le_length (by simp; omega), List.drop_replicate,
        show i + 1 - m = i - m + 1 by omega, List.replicate_succ, hk] at hz
      exact hn.2 (by simp [List.head_eq_of_cons_eq hz])
    · obtain rfl : m = i + 1 := by omega
      rw [List.drop_append_of_le_length (by simp), List.drop_replicate, Nat.sub_self] at hpre
      exact hcolons (eq_of_prefix_cons hpre)

theorem allStand_nil {keys : List ByteString}
    (hkeys : ∀ k ∈ keys, ¬ k <:+: front ∧ (¬ ∀ c ∈ k, c = colon) ∧
      ∃ n segs, k = n ++ joined segs ∧ (n ≠ [] ∧ slash ∉ n) ∧ ∀ s ∈ segs, Literal s) (i : ℕ) :
    AllStand (front ++ List.replicate i slash)
      (keys.zip (List.replicate keys.length [])) := by
  induction keys generalizing i with
  | nil => trivial
  | cons k keys ih =>
    obtain ⟨hfront, hcolons, n, segs, hk, hn, hsegs⟩ := hkeys k (by simp)
    have htext : front ++ List.replicate i slash ++ [slash] =
        front ++ List.replicate (i + 1) slash := by
      rw [List.replicate_succ', List.append_assoc]
    refine ⟨Or.inl (find_behind_slashes hn hsegs hk hfront hcolons i), ?_⟩
    rw [htext]
    exact ih (fun k' hk' => hkeys k' (by simp [hk'])) (i + 1)

end EmptyValues

section Construction

variable {segs : List Segment}

theorem colon_notMem_joined {literals : List ByteString} (h : ∀ s ∈ literals, Literal s) :
    colon ∉ joined literals := by
  intro hmem
  rcases mem_joined hmem with hmem | ⟨s, hs, hmem⟩
  · exact absurd hmem (by decide)
  · exact (h s hs).2.2 hmem

def readKeys (groups : List (ByteString × List ByteString)) : List ByteString :=
  groups.dropLast.map (fun g => g.1 ++ joined g.2) ++ groups.getLast?.toList.map Prod.fst

/-- The constructor reads the leading literals and the keys. The parameters stand as far apart
as their keys are long. -/
theorem Route.make_segments (method : HttpMethod) (hsegs : ∀ s ∈ segs, s.WellFormed)
    (hhead : (cut segs).1 ≠ []) :
    ∃ r, Route.make method (joined (segs.map Segment.text)) = .ok r ∧
      r.Reads method (joined (cut segs).1) (readKeys (cut segs).2)
        (joined ((cut segs).2.getLast?.toList.flatMap Prod.snd)) ∧
      r.pathParameters =
        keyParameters ((joined (cut segs).1).length + 1) (readKeys (cut segs).2) := by
  obtain ⟨hlead, hgroups⟩ := wellFormed_cut hsegs
  have hfront : (joined (cut segs).1).head? = some slash := by
    obtain ⟨s, literals, h⟩ := List.exists_cons_of_ne_nil hhead
    rw [h]
    rfl
  have hno : ¬ [slash, colon] <:+: joined (cut segs).1 := by
    have := not_infix_pair (s := []) (by simp) (colon_notMem_joined hlead)
    rwa [List.nil_append] at this
  rw [text_cut]
  obtain hnil | ⟨gs, g, hgs⟩ := List.eq_nil_or_concat' (cut segs).2
  · obtain ⟨r, hmake, hr⟩ := Route.make_literal method hfront hno
    have hnone : r.pathParameters = [] := List.map_eq_nil_iff.mp hr.names
    refine ⟨r, ?_, ?_, ?_⟩
    · rw [hnil, List.flatMap_nil, List.append_nil, hmake]
    · rw [hnil]
      exact hr
    · rw [hnil, hnone]
      rfl
  · rw [hgs] at hgroups ⊢
    have hg := hgroups g (by simp)
    obtain ⟨r, hmake, hr, hparameters⟩ := @Route.make_keys (joined (cut segs).1)
      (gs.map fun g => g.1 ++ joined g.2) method (g.2) g.1 hfront hno
      (by
        intro k hk
        obtain ⟨g', hg', rfl⟩ := List.mem_map.mp hk
        obtain ⟨hn, hliterals⟩ := hgroups g' (by simp [hg'])
        exact not_infix_pair hn.2 (colon_notMem_joined hliterals))
      hg.1 hg.2
    have hkeys : readKeys (gs ++ [g]) = gs.map (fun g => g.1 ++ joined g.2) ++ [g.1] := by
      simp [readKeys]
    rw [hkeys]
    refine ⟨r, ?_, ?_, hparameters⟩
    · rw [← hmake]
      simp [joined, List.flatMap_map]
    · simpa using hr

end Construction

namespace Pattern

variable {p : Pattern}

theorem parameters_keys (hne : p.parameters ≠ []) :
    ∃ gs g, p.parameters = gs ++ [g] ∧
      p.keys = gs.map (fun g => g.1 ++ joined g.2) ++ [g.1] ∧ p.trailing = g.2 := by
  obtain h | ⟨gs, g, h⟩ := List.eq_nil_or_concat' p.parameters
  · exact absurd h hne
  · exact ⟨gs, g, h, by simp [keys, h], by simp [trailing, h]⟩

theorem length_keys (p : Pattern) : p.keys.length = p.parameters.length := by
  by_cases hne : p.parameters = []
  · simp [keys, hne]
  · obtain ⟨gs, g, hgs, hkeys, -⟩ := parameters_keys hne
    simp [hgs, hkeys]

theorem literal_lead (p : Pattern) : ∀ s ∈ p.lead, Literal s := (wellFormed_cut p.wellFormed).1

theorem wellFormed_parameters (p : Pattern) :
    ∀ g ∈ p.parameters, (g.1 ≠ [] ∧ slash ∉ g.1) ∧ ∀ s ∈ g.2, Literal s :=
  (wellFormed_cut p.wellFormed).2

theorem literal_trailing (p : Pattern) : ∀ s ∈ p.trailing, Literal s := by
  intro s hs
  simp only [trailing, List.mem_flatMap, Option.mem_toList] at hs
  obtain ⟨g, hg, hs⟩ := hs
  exact (p.wellFormed_parameters g (List.mem_of_getLast? hg)).2 s hs

theorem keys_eq (p : Pattern) : ∀ k ∈ p.keys,
    ∃ n segs, k = n ++ joined segs ∧ (n ≠ [] ∧ slash ∉ n) ∧ ∀ s ∈ segs, Literal s := by
  intro k hk
  simp only [keys, List.mem_append, List.mem_map, Option.mem_toList] at hk
  rcases hk with ⟨g, hg, rfl⟩ | ⟨g, hg, rfl⟩
  · obtain ⟨hn, hsegs⟩ := p.wellFormed_parameters g (List.mem_of_mem_dropLast hg)
    exact ⟨g.1, g.2, rfl, hn, hsegs⟩
  · obtain ⟨hn, -⟩ := p.wellFormed_parameters g (List.mem_of_getLast? hg)
    exact ⟨g.1, [], by simp, hn, by simp⟩

theorem colon_notMem_lead (p : Pattern) : colon ∉ joined p.lead :=
  colon_notMem_joined p.literal_lead

theorem even_lead (p : Pattern) : Even (trailingSlashes (joined p.lead)) :=
  even_trailingSlashes_joined p.literal_head fun s hs =>
    ⟨(p.literal_lead s hs).1, (p.literal_lead s hs).2.1⟩

theorem make_path (p : Pattern) (method : HttpMethod) :
    ∃ r, Route.make method p.path = .ok r ∧
      r.Reads method (joined p.lead) p.keys (joined p.trailing) := by
  obtain ⟨r, hmake, hr, -⟩ := Route.make_segments method p.wellFormed p.literal_head
  exact ⟨r, hmake, hr⟩

section Sound

variable {r : Route} {method method' : HttpMethod} {target : ByteString}

theorem length_of_soundAt {us : List ByteString} (hsound : p.SoundAt r (joined us) method)
    (hmatch : (r.isMatchWithTargetRequest (joined us) method).1 = .ok true)
    (hus : ∀ u ∈ us, slash ∉ u) : us.length = p.segs.length := by
  obtain ⟨ts, hts, hslash, hagrees⟩ := hsound hmatch
  rw [joined_injective hus hslash hts, hagrees.length_eq]

theorem length_segs (p : Pattern) :
    p.segs.length = p.lead.length + p.parameters.length +
      (p.between.length + p.trailing.length) := by
  have hcut := length_cut p.segs
  by_cases hne : p.parameters = []
  · rw [show (cut p.segs).2 = [] from hne] at hcut
    simpa [between, trailing, hne, lead] using hcut
  · obtain ⟨gs, g, hgs, -, htrailing⟩ := parameters_keys hne
    rw [show (cut p.segs).2 = gs ++ [g] from hgs] at hcut
    rw [hcut, between, htrailing, hgs]
    simp [lead]

theorem slash_notMem_fill {vs : List ByteString} (hvs : ∀ v ∈ vs, slash ∉ v) :
    ∀ t ∈ p.lead ++ vs ++ p.trailing, slash ∉ t := by
  intro t ht
  simp only [List.mem_append] at ht
  rcases ht with (ht | ht) | ht
  · exact (p.literal_lead t ht).2.1
  · exact hvs t ht
  · exact (p.literal_trailing t ht).2.1

theorem target_of_isMatch (hr : r.Reads method (joined p.lead) p.keys (joined p.trailing))
    (hmatch : (r.isMatchWithTargetRequest target method').1 = .ok true)
    (hne : target ≠ joined p.lead) :
    p.parameters ≠ [] ∧ ∃ vs, vs.length = p.keys.length ∧ (∀ v ∈ vs, slash ∉ v) ∧
      Rewrites (joined p.lead) (p.keys.zip vs) (joined p.lead ++ joined vs) ∧
      target = joined (p.lead ++ vs ++ p.trailing) := by
  have hparameters : p.parameters ≠ [] := by
    intro h
    have hr' : r.Reads method (joined p.lead) [] [] := by simpa [keys, trailing, h] using hr
    exact hne (hr'.isMatch_literal_iff.mp hmatch).1
  have hkeys : p.keys ≠ [] := by
    rw [← List.length_pos_iff, length_keys]
    exact List.length_pos_iff.mpr hparameters
  obtain ⟨-, h | ⟨vs, hlen, hvs, hy, htarget⟩⟩ := hr.target_of_isMatch p.even_lead hkeys hmatch
  · exact absurd h hne
  · exact ⟨hparameters, vs, hlen, hvs, hy, by rw [htarget, joined_append, joined_append]⟩

/-- No literal between two parameters, or a key that is never found: then every accepted
target but the leading literals has the segments of the pattern. -/
theorem soundAt_of_ne_lead (hr : r.Reads method (joined p.lead) p.keys (joined p.trailing))
    (hp : p.between = [] ∨ p.LosesKey) (hne : target ≠ joined p.lead) :
    p.SoundAt r target method' := by
  intro hmatch
  obtain ⟨-, vs, hlen, hvs, hy, rfl⟩ := target_of_isMatch hr hmatch hne
  refine ⟨_, rfl, slash_notMem_fill hvs, ?_⟩
  rcases hp with hbetween | ⟨k, hk, hlost⟩
  · exact agrees_cut hbetween (hlen.trans p.length_keys)
  · have hfound := hy.keys_found p.colon_notMem_lead (List.prefix_refl _)
      (by rw [List.map_snd_zip hlen.le, List.count_append])
    rw [← List.map_fst_zip hlen.ge] at hk
    obtain ⟨b, hb, rfl⟩ := List.mem_map.mp hk
    obtain ⟨hnot, hcolons⟩ := hfound b hb
    exact absurd hlost (not_or.mpr ⟨hnot, hcolons⟩)

theorem not_soundAt_lead (hr : r.Reads method (joined p.lead) p.keys (joined p.trailing))
    (hne : p.parameters ≠ []) : ¬ p.SoundAt r (joined p.lead) method := by
  intro hsound
  have hmatch := (hr.isMatch_iff p.even_lead).mpr ⟨rfl, Or.inl (Eq.refl (joined p.lead))⟩
  have hlen := length_of_soundAt hsound hmatch fun s hs => (p.literal_lead s hs).2.1
  have hpos := List.length_pos_iff.mpr hne
  rw [length_segs] at hlen
  omega

theorem soundAt_lead (hr : r.Reads method (joined p.lead) p.keys (joined p.trailing))
    (hne : p.parameters ≠ [] → method' ≠ method) : p.SoundAt r (joined p.lead) method' := by
  intro hmatch
  obtain ⟨hmethod, -⟩ := (hr.isMatch_iff p.even_lead).mp hmatch
  have hnil : p.parameters = [] := by
    by_contra h
    exact hne h hmethod
  have hagrees := @agrees_cut p.segs []
    (by rw [show (cut p.segs).2 = [] from hnil]; rfl)
    (by rw [show (cut p.segs).2 = [] from hnil]; rfl)
  rw [show (cut p.segs).2 = [] from hnil] at hagrees
  refine ⟨p.lead, rfl, fun s hs => (p.literal_lead s hs).2.1, ?_⟩
  simpa [lead] using hagrees

/-- With a literal between two parameters and all keys found, the target without it and with
empty values is accepted. -/
theorem exists_not_soundAt (hp : ¬ (p.between = [] ∨ p.LosesKey)) :
    ∃ target, target ≠ joined p.lead ∧
      ∀ {r}, r.Reads method (joined p.lead) p.keys (joined p.trailing) →
        ¬ p.SoundAt r target method := by
  rw [not_or] at hp
  have hne : p.parameters ≠ [] := by
    intro h
    exact hp.1 (by simp [between, h])
  have hkeys : p.keys ≠ [] := by
    rw [← List.length_pos_iff, length_keys]
    exact List.length_pos_iff.mpr hne
  have hvs : ∀ v ∈ List.replicate p.keys.length ([] : ByteString), slash ∉ v := by
    intro v hv
    rw [List.eq_of_mem_replicate hv]
    simp
  have hall : AllStand (joined p.lead) (p.keys.zip (List.replicate p.keys.length [])) := by
    have hgood := @allStand_nil (joined p.lead) p.keys
      (fun k hk => ⟨fun h => hp.2 ⟨k, hk, Or.inl h⟩, fun h => hp.2 ⟨k, hk, Or.inr h⟩,
        p.keys_eq k hk⟩) 0
    rwa [List.replicate_zero, List.append_nil] at hgood
  refine ⟨joined (p.lead ++ List.replicate p.keys.length [] ++ p.trailing), ?_, ?_⟩
  · intro h
    have heq := congrArg List.length
      (joined_injective (slash_notMem_fill hvs) (fun s hs => (p.literal_lead s hs).2.1) h)
    have hpos := List.length_pos_iff.mpr hkeys
    simp only [List.length_append, List.length_replicate] at heq
    omega
  · intro r hr hsound
    have hmatch := hr.isMatch_of_allStand p.even_lead hkeys (List.length_replicate ..) hvs
      (fun c => head?_joined) hall
    rw [← joined_append, ← joined_append] at hmatch
    have hlen := length_of_soundAt hsound hmatch (slash_notMem_fill hvs)
    have hpos := List.length_pos_iff.mpr hp.1
    rw [length_segs] at hlen
    simp only [List.length_append, List.length_replicate, length_keys] at hlen
    omega

end Sound

/-- A pattern is sound on all targets exactly if it has no parameter. Its leading literals put
aside, it is exactly if no literal stands between two parameters or a key is never found; and
for such a pattern the leading literals, where parameters follow, are the only target on
which it is not. -/
theorem sound_iff (p : Pattern) (method : HttpMethod) :
    ∃ r, Route.make method p.path = .ok r ∧
      ((∀ h target method', p.SoundAt (r.after h) target method') ↔ p.parameters = []) ∧
      ((∀ h target method', target ≠ joined p.lead → p.SoundAt (r.after h) target method') ↔
        p.between = [] ∨ p.LosesKey) ∧
      (p.between = [] ∨ p.LosesKey → ∀ h target method', p.SoundAt (r.after h) target method' ↔
        ¬ (p.parameters ≠ [] ∧ target = joined p.lead ∧ method' = method)) := by
  obtain ⟨r, hmake, hr⟩ := p.make_path method
  have hafter : ∀ h, (r.after h).Reads method (joined p.lead) p.keys (joined p.trailing) :=
    fun h => hr.congr (r.samePattern_after h)
  have htarget : p.between = [] ∨ p.LosesKey → ∀ h target method',
      p.SoundAt (r.after h) target method' ↔
        ¬ (p.parameters ≠ [] ∧ target = joined p.lead ∧ method' = method) := by
    intro hp h target method'
    constructor
    · rintro hsound ⟨hne, rfl, rfl⟩
      exact not_soundAt_lead (hafter h) hne hsound
    · intro hnot
      by_cases hlead : target = joined p.lead
      · subst hlead
        exact soundAt_lead (hafter h) fun hne hmethod => hnot ⟨hne, rfl, hmethod⟩
      · exact soundAt_of_ne_lead (hafter h) hp hlead
  refine ⟨r, hmake, ⟨fun hall => ?_, fun hnil => ?_⟩, ⟨fun hall => ?_, fun hp => ?_⟩, htarget⟩
  · by_contra hne
    exact not_soundAt_lead (hafter []) hne (hall [] _ _)
  · intro h target method'
    rw [htarget (Or.inl (by simp [between, hnil]))]
    exact fun hbad => hbad.1 hnil
  · by_contra hp
    obtain ⟨target, hne, hnot⟩ := @exists_not_soundAt p method hp
    exact hnot (hafter []) (hall [] target method hne)
  · exact fun h target method' hne => soundAt_of_ne_lead (hafter h) hp hne

def usersId : Pattern where
  segs := [.literal (ascii "users"), .parameter (ascii "id")]
  wellFormed := by decide
  distinct := by decide
  literal_head := by decide

theorem sound_iff_usersId :
    ∃ r, Route.make .get usersId.path = .ok r ∧ ∀ h target method',
      usersId.SoundAt (r.after h) target method' ↔
        ¬ (usersId.parameters ≠ [] ∧ target = joined usersId.lead ∧ method' = .get) := by
  obtain ⟨r, hr, -, -, hsound⟩ := sound_iff usersId .get
  exact ⟨r, hr, hsound (Or.inl (by decide))⟩

def litBetween : Pattern where
  segs := [.literal (ascii "a"), .parameter (ascii "x"), .literal (ascii "lit"),
    .parameter (ascii "y")]
  wellFormed := by decide
  distinct := by decide
  literal_head := by decide

/-- The pattern `/a/:x/lit/:y` accepts `/a/1/2`. -/
theorem litBetween_not_sound :
    ¬ ∀ (p : Pattern) (method : HttpMethod) (r : Route), Route.make method p.path = .ok r →
      ∀ h target method', p.SoundAt (r.after h) target method' := by
  intro hall
  obtain ⟨r, hr⟩ : ∃ r, Route.make .get litBetween.path = .ok r := ⟨_, rfl⟩
  have hsound := hall litBetween .get r hr [] (joined [ascii "a", ascii "1", ascii "2"]) .get
  have hmatch : ((r.after []).isMatchWithTargetRequest
      (joined [ascii "a", ascii "1", ascii "2"]) .get).1 = .ok true := by
    cases hr
    decide +kernel
  have hlen := length_of_soundAt hsound hmatch (by decide)
  revert hlen
  decide

end Pattern

end Webcrown.Http
