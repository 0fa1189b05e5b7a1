import Webcrown.Http.Middlewares.Authorization
import Webcrown.Json.Text

/-!
# The reply to a refused authorization

The reason of the refusal stands in the reply as the callback gave it, between the
quotes of a JSON string.
-/

namespace Webcrown.Http

open Bytes Common Shared

namespace AuthMiddleware

variable (a : AuthMiddleware) (request : HttpRequest)

def refused (response : HttpResponse) (reason : ByteString) : HttpResponse :=
  (response.setBody (errorBody reason)).setStatus .unauthorized

/-- The last invocation of a loop that invoked `new`, if it was refused, is what the loop ended
with. -/
def EndsRefused (response : HttpResponse) (e : Executed) (new : List Invocation) : Prop :=
  ∀ token route level r, new.getLast? = some (.authorize token route level (.ok r)) →
    r.success = false → e.result = .ok false ∧ e.response = refused response r.reason

theorem endsRefused_nil (response : HttpResponse) (e : Executed) : EndsRefused response e [] :=
  fun _ _ _ _ h => nomatch h

theorem EndsRefused.cons {response : HttpResponse} {e : Executed} {new : List Invocation}
    {token : ByteString} {route : RouteRef} {level : AuthAuthorizationLevel} {r : AuthResult}
    (hr : r.success = true) (h : EndsRefused response e new) :
    EndsRefused response e (.authorize token route level (.ok r) :: new) := by
  intro token' route' level' r' hlast hr'
  cases new with
  | nil =>
    obtain ⟨-, -, -, rfl⟩ : token = token' ∧ route = route' ∧ level = level' ∧ r = r' := by
      simpa using hlast
    rw [hr] at hr'
    cases hr'
  | cons i new =>
    rw [List.getLast?_cons_cons] at hlast
    exact h token' route' level' r' hlast hr'

theorem loop_endsRefused (routes : List (RouteRef × AuthAuthorizationLevel))
    (response : HttpResponse) (s : Shared) :
    ∃ new, (a.loop request routes response s).shared.log = s.log ++ new ∧
      EndsRefused response (a.loop request routes response s) new := by
  induction routes generalizing s with
  | nil => exact ⟨[], by simp [loop], endsRefused_nil _ _⟩
  | cons entry routes ih =>
    obtain ⟨route, level⟩ := entry
    simp only [loop]
    cases (s.isMatch route request).1 with
    | error e => exact ⟨[], by simp, endsRefused_nil _ _⟩
    | ok verdict =>
      cases verdict with
      | false => exact ih (s.isMatch route request).2
      | true =>
        cases authHeader request.headers with
        | none => exact ⟨[], by simp, endsRefused_nil _ _⟩
        | some value =>
          dsimp only
          cases (extractToken value).isEmpty with
          | true => exact ⟨[], by simp, endsRefused_nil _ _⟩
          | false =>
            rw [if_neg Bool.false_ne_true]
            generalize hm : (s.isMatch route request).2 = m
            generalize a.cb m.log (extractToken value) route (m.routes route) level = result
            have hlog (i : Invocation) : (m.record i).log = s.log ++ [i] := by
              rw [log_record, ← hm, log_isMatch]
            cases result with
            | error t =>
              refine ⟨[.authorize (extractToken value) route level (.error t)], hlog _, ?_⟩
              intro token' route' level' r' hlast
              simp at hlast
            | ok r =>
              dsimp only
              cases hsuccess : r.success with
              | false =>
                refine ⟨[.authorize (extractToken value) route level (.ok r)], hlog _, ?_⟩
                intro token' route' level' r' hlast _
                obtain ⟨-, -, -, rfl⟩ : extractToken value = token' ∧ route = route' ∧
                    level = level' ∧ r = r' := by simpa using hlast
                exact ⟨rfl, rfl⟩
              | true =>
                rw [if_pos rfl]
                obtain ⟨new, hnew, h⟩ :=
                  ih (m.record (.authorize (extractToken value) route level (.ok r)))
                refine ⟨.authorize (extractToken value) route level (.ok r) :: new, ?_,
                  h.cons hsuccess⟩
                rw [hnew, hlog, List.append_assoc]
                rfl

theorem execute_refused {response : HttpResponse} {s : Shared} {front : List Invocation}
    {token : ByteString} {route : RouteRef} {level : AuthAuthorizationLevel} {r : AuthResult}
    (hlog : (a.execute request response s).shared.log =
      s.log ++ front ++ [.authorize token route level (.ok r)]) (hr : r.success = false) :
    (a.execute request response s).result = .ok false ∧
      (a.execute request response s).response = refused response r.reason := by
  obtain ⟨new, hnew, h⟩ := a.loop_endsRefused request a.routes response s
  have hshared : (a.execute request response s).shared.log =
      (a.loop request a.routes response s).shared.log := by
    simp only [execute]
    split <;> rfl
  have hlast : new.getLast? = some (.authorize token route level (.ok r)) := by
    rw [hshared, hnew, List.append_assoc] at hlog
    rw [List.append_cancel_left hlog, List.getLast?_append_cons]
    rfl
  obtain ⟨hresult, hresponse⟩ := h token route level r hlast hr
  simp only [execute, hresult]
  exact ⟨trivial, hresponse⟩

theorem errorBody_eq (reason : ByteString) : errorBody reason =
    123 :: Json.quote :: (ascii "error" ++ Json.quote :: Json.colon :: 32 :: Json.quote ::
      (reason ++ [Json.quote, 125])) := by
  have hopen : ascii "\x7b\"error\": \"" = 123 :: Json.quote :: (ascii "error" ++
      [Json.quote, Json.colon, 32, Json.quote]) := by decide
  have hclose : ascii "\"\x7d" = [Json.quote, 125] := by decide
  rw [errorBody, hopen, hclose]
  simp

theorem not_lt_of_isPrint {c : UInt8} (h : isPrint c = true) : ¬ c < 32 := by
  simp only [isPrint, Bool.and_eq_true, decide_eq_true_eq] at h
  exact UInt8.not_lt.mpr h.1

/-- The body is an object with the reason under `error` exactly if the reason has no quote and no
backslash in it. -/
theorem parse_errorBody_iff {reason : ByteString} (h : ∀ c ∈ reason, isPrint c = true) :
    Json.parse (errorBody reason) = some (.object [(ascii "error", .string reason)]) ↔
      Json.quote ∉ reason ∧ Json.backslash ∉ reason := by
  have hkey : (ascii "error").all (fun c => decide (Json.IsPlain c)) = true := by decide
  rw [errorBody_eq]
  exact Json.parse_eq_member_self_iff
    (fun c hc => of_decide_eq_true (List.all_eq_true.mp hkey c hc))
    fun c hc => not_lt_of_isPrint (h c hc)

end AuthMiddleware

/-- Whatever the request and the routes are, the reply to a refusal is a 401, and its body says
the reason in JSON exactly if there is nothing in the reason to escape. -/
theorem refusal_says_reason_iff {a : AuthMiddleware} {request : HttpRequest}
    {response : HttpResponse} {s : Shared} {front : List Invocation} {token : ByteString}
    {route : RouteRef} {level : AuthAuthorizationLevel} {r : AuthResult}
    (hlog : (a.execute request response s).shared.log =
      s.log ++ front ++ [.authorize token route level (.ok r)]) (hr : r.success = false)
    (hprint : ∀ c ∈ r.reason, isPrint c = true) :
    (a.execute request response s).response.status = .unauthorized ∧
      (Json.parse (a.execute request response s).response.body =
          some (.object [(ascii "error", .string r.reason)]) ↔
        Json.quote ∉ r.reason ∧ Json.backslash ∉ r.reason) := by
  rw [(a.execute_refused request hlog hr).2]
  exact ⟨rfl, AuthMiddleware.parse_errorBody_iff hprint⟩

def closedAuth (reason : ByteString) : AuthMiddleware where
  routes := [(0, .owner)]
  cb := fun _ _ _ _ _ => .ok ⟨false, reason⟩

theorem refusal_says_reason_iff_closed :
    ((closedAuth (ascii "token expired")).execute ownerRequest {} ownerShared).response.status =
        .unauthorized ∧
      (Json.parse ((closedAuth (ascii "token expired")).execute ownerRequest {}
            ownerShared).response.body =
          some (.object [(ascii "error", .string (ascii "token expired"))]) ↔
        Json.quote ∉ ascii "token expired" ∧ Json.backslash ∉ ascii "token expired") := by
  have hlog : ((closedAuth (ascii "token expired")).execute ownerRequest {}
      ownerShared).shared.log = ownerShared.log ++ [] ++
        [.authorize (ascii "t") 0 .owner (.ok ⟨false, ascii "token expired"⟩)] := by
    decide +kernel
  exact refusal_says_reason_iff hlog rfl (List.all_eq_true.mp (by decide))

/-- A reason that names a member of its own, between quotes, adds it to the reply. -/
theorem reply_with_two_members :
    (∀ c ∈ ascii "no\", \"admin\": \"yes", isPrint c = true) ∧
      Json.parse ((closedAuth (ascii "no\", \"admin\": \"yes")).execute ownerRequest {}
          ownerShared).response.body =
        some (.object [(ascii "error", .string (ascii "no")),
          (ascii "admin", .string (ascii "yes"))]) ∧
      Json.parse ((closedAuth (ascii "no\", \"admin\": \"yes")).execute ownerRequest {}
          ownerShared).response.body ≠
        some (.object [(ascii "error", .string (ascii "no\", \"admin\": \"yes"))]) := by
  have hbody : ((closedAuth (ascii "no\", \"admin\": \"yes")).execute ownerRequest {}
      ownerShared).response.body =
        ascii "\x7b\"error\": \"no\", \"admin\": \"yes\"\x7d" := by decide +kernel
  have hparse : Json.parse (ascii "\x7b\"error\": \"no\", \"admin\": \"yes\"\x7d") =
      some (.object [(ascii "error", .string (ascii "no")),
        (ascii "admin", .string (ascii "yes"))]) := rfl
  rw [hbody, hparse]
  exact ⟨List.all_eq_true.mp (by decide), rfl, by simp⟩

end Webcrown.Http
