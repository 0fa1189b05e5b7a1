import Webcrown.Http.Middlewares.Dispatch
import Webcrown.Http.Middlewares.RouteLanguage

/-!
# Tables of common routes

Paths of plain segments, with one parameter at the end or without. A table of such routes
dispatches by its paths alone: matching never throws, and the callback that is invoked is that
of the first route whose path covers the target, whatever requests came before.
-/

namespace Webcrown.Http

open Bytes Common Shared

/-- Plain segments, and the name of a parameter behind them if there is one. -/
structure CommonPath where
  method : HttpMethod
  segs : List ByteString
  key : Option ByteString
  plain : ∀ s ∈ segs, PlainSegment s
  key_free : ∀ n ∈ key, segs ≠ [] ∧ n ≠ [] ∧ slash ∉ n ∧ colon ∉ n ∧ ¬ n <:+: joined segs

namespace CommonPath

def path (p : CommonPath) : ByteString :=
  match p.key with
  | none => rooted p.segs
  | some n => joined p.segs ++ slash :: colon :: n

/-- The requests that the path is for. A parameter may be missing, or empty. -/
def Covers (p : CommonPath) (method : HttpMethod) (target : ByteString) : Prop :=
  method = p.method ∧
    match p.key with
    | none => target = rooted p.segs
    | some _ => target = joined p.segs ∨ ∃ v, slash ∉ v ∧ target = joined p.segs ++ slash :: v

/-- A route that has read the path. -/
def ReadBy (p : CommonPath) (r : Route) : Prop :=
  match p.key with
  | none => r.Reads p.method (rooted p.segs) [] []
  | some n => r.Reads p.method (joined p.segs) [n] []

end CommonPath

namespace Route

variable {r : Route} {method method' : HttpMethod} {front target n : ByteString}

theorem Reads.returns_literal (hr : r.Reads method front [] []) :
    ∃ b, (r.isMatchWithTargetRequest target method').1 = .ok b := by
  by_cases hbinds : ∃ rest, r.Binds target method' rest
  · obtain ⟨rest, hbinds⟩ := hbinds
    rw [isMatch_of_binds hbinds, List.map_eq_nil_iff.mp hr.names]
    exact ⟨_, rfl⟩
  · obtain ⟨b, hb⟩ := isMatch_of_not_binds (not_exists.mp hbinds)
    exact ⟨b, by rw [hb]⟩

/-- The text of the path begins with a slash, so it does not begin with the name. -/
theorem Reads.returns_single (hr : r.Reads method front [n] []) (hn : n ≠ [])
    (hslash : slash ∉ n) : ∃ b, (r.isMatchWithTargetRequest target method').1 = .ok b := by
  by_cases hbinds : ∃ rest, r.Binds target method' rest
  · obtain ⟨rest, hbinds⟩ := hbinds
    obtain ⟨p, hp, rfl⟩ : ∃ p, r.pathParameters = [p] ∧ p.name = n := by
      obtain ⟨p, ps, hps, hname, hnil⟩ := List.map_eq_cons_iff.mp hr.names
      rw [List.map_eq_nil_iff.mp hnil] at hps
      exact ⟨p, hps, hname⟩
    have hprefix : ¬ p.name <+: r.path := by
      obtain ⟨c, name, hcons⟩ := List.exists_cons_of_ne_nil hn
      obtain ⟨u, hu⟩ := List.head?_eq_some_iff.mp (hr.uriTarget ▸ r.uriTarget_head)
      rw [hr.path, hu, hcons]
      rintro ⟨y, hy⟩
      rw [hcons, (List.cons.inj hy).1] at hslash
      exact hslash List.mem_cons_self
    rw [isMatch_of_binds hbinds, hp]
    simp only [bindValues, replaceKey_eq, if_neg hprefix]
    exact ⟨_, rfl⟩
  · obtain ⟨b, hb⟩ := isMatch_of_not_binds (not_exists.mp hbinds)
    exact ⟨b, by rw [hb]⟩

end Route

namespace CommonPath

open Route

variable {p : CommonPath} {r r' : Route} {target : ByteString} {method : HttpMethod}

theorem even_trailingSlashes (p : CommonPath) (h : p.segs ≠ []) :
    Even (trailingSlashes (joined p.segs)) :=
  even_trailingSlashes_joined h fun s hs => ⟨(p.plain s hs).1, (p.plain s hs).2.1⟩

theorem exists_make (p : CommonPath) : ∃ r, Route.make p.method p.path = .ok r ∧ p.ReadBy r := by
  unfold path ReadBy
  cases hkey : p.key with
  | none => exact make_literal p.method (head?_rooted p.segs) (not_pair_infix_rooted p.plain)
  | some n =>
    obtain ⟨hsegs, hn, hslash, -, -⟩ := p.key_free n hkey
    have hhead : (joined p.segs).head? = some slash := by
      obtain ⟨s, segs, hcons⟩ := List.exists_cons_of_ne_nil hsegs
      rw [hcons]
      rfl
    obtain ⟨r, hmake, hr, -⟩ := @make_keys (joined p.segs) [] p.method [] n hhead
      (not_pair_infix_joined p.plain) (by simp) ⟨hn, hslash⟩ (by simp)
    exact ⟨r, by simpa using hmake, hr⟩

theorem readBy_of_make (h : Route.make p.method p.path = .ok r) : p.ReadBy r := by
  obtain ⟨r', hmake, hr'⟩ := p.exists_make
  rw [h, Except.ok.injEq] at hmake
  exact hmake ▸ hr'

theorem ReadBy.congr (h : p.ReadBy r) (hr : SamePattern r r') : p.ReadBy r' := by
  unfold ReadBy at h ⊢
  cases hkey : p.key with
  | none =>
    rw [hkey] at h
    exact Reads.congr h hr
  | some n =>
    rw [hkey] at h
    exact Reads.congr h hr

theorem ReadBy.returns (h : p.ReadBy r) :
    ∃ b, (r.isMatchWithTargetRequest target method).1 = .ok b := by
  unfold ReadBy at h
  cases hkey : p.key with
  | none =>
    rw [hkey] at h
    exact Reads.returns_literal h
  | some n =>
    rw [hkey] at h
    obtain ⟨-, hn, hslash, -, -⟩ := p.key_free n hkey
    exact Reads.returns_single h hn hslash

theorem ReadBy.isMatch_iff (h : p.ReadBy r) :
    (r.isMatchWithTargetRequest target method).1 = .ok true ↔ p.Covers method target := by
  unfold ReadBy at h
  unfold Covers
  cases hkey : p.key with
  | none =>
    rw [hkey] at h
    rw [Reads.isMatch_literal_iff h, and_comm]
  | some n =>
    rw [hkey] at h
    obtain ⟨hsegs, hn, hslash, hcolon, hfront⟩ := p.key_free n hkey
    rw [Reads.isMatch_single_iff h (p.even_trailingSlashes hsegs) hn hslash hcolon hfront]

theorem ReadBy.values (h : p.ReadBy r) (hcovers : p.Covers method target) {n v : ByteString}
    (hkey : p.key = some n) (htarget : target = joined p.segs ++ slash :: v) :
    (r.isMatchWithTargetRequest target method).2.pathParameters.map
      (fun q => (q.name, q.value)) = [(n, v)] := by
  have hmatch := h.isMatch_iff.mpr hcovers
  obtain ⟨rfl, htargets⟩ := hcovers
  rw [hkey] at htargets
  have hv : slash ∉ v := by
    rcases htargets with heq | ⟨v', hv', heq⟩
    · simp [heq] at htarget
    · rw [heq] at htarget
      obtain ⟨-, rfl⟩ := List.cons.inj (List.append_cancel_left htarget)
      exact hv'
  unfold ReadBy at h
  rw [hkey] at h
  have hvalues := Reads.values h (p.even_trailingSlashes (p.key_free n hkey).1) htarget hmatch
  have hnext := (nextSegment_append (t := []) hv (by simp)).1
  rw [List.append_nil] at hnext
  rw [hvalues]
  simp [segments, hnext]

end CommonPath

namespace RoutingMiddleware

variable {a : RoutingMiddleware} {paths : RouteRef → CommonPath} {s s' : Shared}
  {request : HttpRequest} {response : HttpResponse} {route : RouteRef}

theorem sameRoutes_loop (a : RoutingMiddleware) (request : HttpRequest)
    (routers : List RouteRef) (response : HttpResponse) (s : Shared) :
    SameRoutes s (a.loop request routers response s).shared := by
  induction routers generalizing s with
  | nil => exact .refl s
  | cons route routers ih =>
    have hmatch := s.sameRoutes_isMatch route request
    simp only [loop]
    cases (s.isMatch route request).1 with
    | error e => exact hmatch
    | ok verdict =>
      cases verdict with
      | false => exact hmatch.trans (ih _)
      | true => dsimp only; split <;> exact hmatch.trans (sameRoutes_record _ _)

theorem sameRoutes_execute (a : RoutingMiddleware) (request : HttpRequest)
    (response : HttpResponse) (s : Shared) :
    SameRoutes s (a.execute request response s).shared := by
  have hloop := a.sameRoutes_loop request a.routers response s
  simp only [execute]
  split <;> exact hloop

/-- Every route of the middleware has read its path. -/
def HasTable (a : RoutingMiddleware) (paths : RouteRef → CommonPath) (s : Shared) : Prop :=
  ∀ route ∈ a.routers, (paths route).ReadBy (s.routes route)

theorem HasTable.congr (h : a.HasTable paths s) (hs : SameRoutes s s') : a.HasTable paths s' :=
  fun route hroute => (h route hroute).congr (hs route)

theorem HasTable.returns (h : a.HasTable paths s) (request : HttpRequest) :
    ∀ route ∈ a.routers, ∃ b, (s.isMatch route request).1 = .ok b :=
  fun route hroute => (h route hroute).returns

theorem HasTable.accepts_iff (h : a.HasTable paths s) (hroute : route ∈ a.routers) :
    s.Accepts request route = true ↔ (paths route).Covers request.method request.target :=
  Shared.accepts_iff.trans (h route hroute).isMatch_iff

theorem HasTable.firstMatch_eq_none (h : a.HasTable paths s)
    (hnone : ∀ route ∈ a.routers, ¬ (paths route).Covers request.method request.target) :
    a.firstMatch request s = none :=
  List.find?_eq_none.mpr fun route hroute => (h.accepts_iff hroute).not.mpr (hnone route hroute)

theorem HasTable.firstMatch_eq_some (h : a.HasTable paths s) {before after : List RouteRef}
    (hrouters : a.routers = before ++ route :: after)
    (hcovers : (paths route).Covers request.method request.target)
    (hbefore : ∀ other ∈ before, ¬ (paths other).Covers request.method request.target) :
    a.firstMatch request s = some route := by
  rw [firstMatch, List.find?_eq_some_iff_append]
  refine ⟨(h.accepts_iff (by simp [hrouters])).mpr hcovers, before, after, hrouters, ?_⟩
  intro other hother
  simpa using (h.accepts_iff (by simp [hrouters, hother])).not.mpr (hbefore other hother)

theorem HasTable.bound (h : a.HasTable paths s) (hroute : route ∈ a.routers)
    (hcovers : (paths route).Covers request.method request.target) {n v : ByteString}
    (hkey : (paths route).key = some n)
    (htarget : request.target = joined (paths route).segs ++ slash :: v) :
    (s.bound request route).map (fun q => (q.name, q.value)) = [(n, v)] := by
  have hvalues := (h route hroute).values hcovers hkey htarget
  simpa [Shared.bound, Shared.isMatch] using hvalues

end RoutingMiddleware

end Webcrown.Http
