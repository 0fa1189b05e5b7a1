import Webcrown.Server.SessionSteps
import Webcrown.Server.WebServer

/-!
# The accept loop

One accept is outstanding as long as none fails: the handler of a failed accept returns
without the next one, and leaves its session in `sessions_`.
-/

namespace Webcrown.Server

open Http Transitions

namespace WebServer

variable {v v' : WebServer} {r : SessionRef}

/-- Every entry of `sessions_` is a session under its own id, which is connected or belongs to
one of the references `pending`. -/
def Registered (pending : List SessionRef) (v : WebServer) : Prop :=
  ∀ id r, v.sessions.lookup id = some r →
    ∃ s, v.objects[r]? = some s ∧ s.sessionId = id ∧ (r ∈ pending ∨ s.connected = true)

/-- The invariant: one accept is outstanding, which has not failed. -/
structure Accepting (v : WebServer) : Prop where
  accepts : ∃ a, v.accepts = [a] ∧ a.failed ≠ some true
  registered : v.Registered (v.accepts.map Accept.session)

/-- What a handler of a session may do to `sessions_`: erase entries, and its own one when the
session is disconnected. -/
structure Unregisters (s t : State) : Prop where
  sessionId : t.sessionId = s.sessionId
  sessions : ∀ id r, t.sessions.lookup id = some r → s.sessions.lookup id = some r
  erased : s.connected = true → t.connected = false → s.sessionId ∉ t.sessions

theorem unregisters_of_later {s t : State} (h : s.Later t) : Unregisters s t :=
  ⟨h.sessionId, h.sessions, h.erased⟩

theorem onSession_cases {f : State → Option State} (h : v.onSession r f = some v') :
    ∃ s t, v.objects[r]? = some s ∧ f ⟨s, v.sessions⟩ = some t ∧
      v' = { v with objects := v.objects.set r t.toSession, sessions := t.sessions } := by
  unfold onSession at h
  split at h
  · cases h
  · rename_i s hs
    obtain ⟨t, ht, rfl⟩ := Option.map_eq_some_iff.mp h
    exact ⟨s, t, hs, ht, rfl⟩

theorem Registered.onSession {pending : List SessionRef} {f : State → Option State}
    (h : v.Registered pending) (hf : ∀ s t, f s = some t → Unregisters s t)
    (hv : v.onSession r f = some v') : v'.Registered pending := by
  obtain ⟨s, t, hs, ht, rfl⟩ := onSession_cases hv
  have hstep := hf _ _ ht
  intro key r' hr'
  obtain ⟨s', hs', hkey, hstate⟩ := h key r' (hstep.sessions key r' hr')
  by_cases hr : r' = r
  · subst hr
    obtain rfl : s = s' := Option.some.inj (hs.symm.trans hs')
    refine ⟨t.toSession, ?_, hstep.sessionId.trans hkey, hstate.imp id fun hconnected => ?_⟩
    · obtain ⟨hlt, -⟩ := List.getElem?_eq_some_iff.mp hs
      simp [hlt]
    · by_contra hend
      apply hstep.erased hconnected (by simpa using hend)
      exact Finmap.mem_of_lookup_eq_some (hkey ▸ hr')
  · exact ⟨s', by simpa [List.getElem?_set_ne (Ne.symm hr)] using hs', hkey, hstate⟩

theorem onSession_next {e : Server.Event} (h : v.next (.session r e) = some v') :
    v.onSession r (fun s => s.next e) = some v' := by
  cases e with
  | disconnectSession env failed => cases h
  | _ => exact h

theorem onSession_accepts {f : State → Option State} (hv : v.onSession r f = some v') :
    v'.accepts = v.accepts ∧ v'.started = v.started := by
  obtain ⟨s, t, -, -, rfl⟩ := onSession_cases hv
  exact ⟨rfl, rfl⟩

theorem Accepting.onSession {f : State → Option State} (h : v.Accepting)
    (hf : ∀ s t, f s = some t → Unregisters s t) (hv : v.onSession r f = some v') :
    v'.Accepting := by
  obtain ⟨haccepts, -⟩ := onSession_accepts hv
  exact ⟨haccepts ▸ h.accepts, haccepts ▸ h.registered.onSession hf hv⟩

/-- The next accept, with a session that is registered before it is accepted. -/
theorem accepting_accept (hstarted : v.started = true) (haccepts : v.accepts = [])
    (h : v.Registered []) (m : Uninitialised) : (v.accept m).Accepting := by
  have haccept : v.accept m = { v with
      lastSessionId := v.lastSessionId + 1
      objects := v.objects ++ [Session.fresh (v.lastSessionId + 1) m]
      sessions := if v.lastSessionId + 1 ∈ v.sessions then v.sessions
        else v.sessions.insert (v.lastSessionId + 1) v.objects.length
      accepts := [⟨v.objects.length, none⟩] } := by
    simp [accept, hstarted, createSession, registerSession, haccepts]
  rw [haccept]
  refine ⟨⟨_, rfl, by simp⟩, fun key r hr => ?_⟩
  have hold : v.sessions.lookup key = some r → ∃ s,
      (v.objects ++ [Session.fresh (v.lastSessionId + 1) m])[r]? = some s ∧ s.sessionId = key ∧
        (r ∈ [v.objects.length] ∨ s.connected = true) := by
    intro hr
    obtain ⟨s, hs, hkey, hstate⟩ := h key r hr
    obtain ⟨hlt, -⟩ := List.getElem?_eq_some_iff.mp hs
    exact ⟨s, by rw [List.getElem?_append_left hlt, hs], hkey, hstate.imp (by simp) id⟩
  simp only at hr
  split_ifs at hr with hmem
  · exact hold hr
  · by_cases hkey : key = v.lastSessionId + 1
    · subst hkey
      rw [Finmap.lookup_insert] at hr
      obtain rfl := Option.some.inj hr
      exact ⟨Session.fresh (v.lastSessionId + 1) m, by simp, rfl, Or.inl (by simp)⟩
    · rw [Finmap.lookup_insert_of_ne _ hkey] at hr
      exact hold hr

theorem Accepting.completeAccept {i : ℕ} (h : v.Accepting)
    (hv : v.completeAccept i false = some v') : v'.Accepting := by
  unfold WebServer.completeAccept at hv
  split at hv
  · rename_i r hget
    obtain ⟨a, haccepts, -⟩ := h.accepts
    rw [haccepts, List.getElem?_singleton] at hget
    split_ifs at hget with hi
    obtain rfl := hi
    obtain rfl := Option.some.inj hget
    have hset : Accepting { v with accepts := v.accepts.set 0 ⟨r, some false⟩ } := by
      refine ⟨⟨⟨r, some false⟩, by rw [haccepts]; rfl, by simp⟩, ?_⟩
      have hregistered := h.registered
      rw [haccepts] at hregistered ⊢
      exact hregistered
    refine hset.onSession (fun s t ht => ?_) hv
    obtain rfl := Option.some.inj ht
    exact ⟨rfl, fun _ _ => id, fun hs ht => by simp [hs] at ht⟩
  · cases hv

theorem unregisters_connect (s : State) (bufferSize : ℕ) :
    Unregisters s (s.connect bufferSize) ∧ (s.connect bufferSize).connected = true := by
  have hconnected := State.connected_connect s bufferSize
  exact ⟨⟨State.sessionId_connect s bufferSize,
    fun _ _ h => State.sessions_connect s bufferSize ▸ h,
    fun _ h => by simp [hconnected] at h⟩, hconnected⟩

theorem Registered.admit (h : v.Registered [r])
    (hconnected : ∀ s, v.objects[r]? = some s → s.connected = true) : v.Registered [] := by
  intro key r' hr'
  obtain ⟨s, hs, hkey, hstate⟩ := h key r' hr'
  refine ⟨s, hs, hkey, Or.inr (hstate.elim (fun hr => ?_) id)⟩
  obtain rfl := List.mem_singleton.mp hr
  exact hconnected s hs

theorem Accepting.acceptHandler {i bufferSize : ℕ} {m : Uninitialised} (h : v.Accepting)
    (hstarted : v.started = true) (hv : v.acceptHandler i bufferSize m = some v') :
    v'.Accepting := by
  unfold WebServer.acceptHandler at hv
  split at hv
  · rename_i r failed hget
    obtain ⟨a, haccepts, hfailed⟩ := h.accepts
    have hregistered := h.registered
    rw [haccepts] at hget hregistered
    rw [List.getElem?_singleton] at hget
    split_ifs at hget with hi
    obtain rfl := hi
    obtain rfl := Option.some.inj hget
    obtain rfl : failed = false := by simpa using hfailed
    obtain ⟨v₁, hv₁, rfl⟩ := Option.map_eq_some_iff.mp hv
    obtain ⟨hempty, hstarted₁⟩ := onSession_accepts hv₁
    have hregistered₁ : v₁.Registered [r] :=
      Registered.onSession (v := { v with accepts := v.accepts.eraseIdx 0 }) hregistered
        (fun s t ht => Option.some.inj ht ▸ (unregisters_connect s bufferSize).1) hv₁
    have hadmit : v₁.Registered [] := by
      apply hregistered₁.admit
      intro s hs
      obtain ⟨s₀, t₀, hs₀, ht₀, rfl⟩ := onSession_cases hv₁
      obtain ⟨hlt, -⟩ := List.getElem?_eq_some_iff.mp hs₀
      obtain rfl := Option.some.inj ht₀
      simp only [List.getElem?_set_self hlt, Option.some.injEq] at hs
      rw [← hs]
      exact (unregisters_connect _ bufferSize).2
    have hnext := accepting_accept (v := v₁.asyncWait r) (hstarted₁.trans hstarted)
      (hempty.trans (by rw [haccepts]; rfl)) hadmit m
    exact ⟨hnext.accepts, hnext.registered⟩
  · cases hv

theorem unregisters_disconnectSession (s : State) (env : Env) :
    Unregisters s (s.disconnectSession env) := by
  rw [State.disconnectSession_eq]
  exact unregisters_of_later (State.Later.refl s).disconnect

/-- Every step keeps the invariant, unless an accept fails or the server stops. -/
theorem Accepting.next {e : Event} (h : v.Accepting) (hstarted : v.started = true)
    (hok : ∀ i, e ≠ .completeAccept i true) (hv : v.next e = some v') :
    v'.started = true → v'.Accepting := by
  intro hstarted'
  cases e with
  | session r e =>
    exact h.onSession (fun s t ht => unregisters_of_later (State.later_next ht)) (onSession_next hv)
  | completeAccept i failed =>
    cases failed with
    | true => exact absurd rfl (hok i)
    | false => exact h.completeAccept hv
  | acceptHandler i bufferSize m => exact h.acceptHandler hstarted hv
  | expire i =>
    simp only [WebServer.next, expire] at hv
    split at hv
    · obtain rfl := Option.some.inj hv
      exact ⟨h.accepts, h.registered⟩
    · cases hv
  | timerHandler i env =>
    simp only [WebServer.next, timerHandler] at hv
    split at hv
    · have herase : Accepting { v with timers := v.timers.eraseIdx i } :=
        ⟨h.accepts, h.registered⟩
      refine herase.onSession (fun s t ht => ?_) hv
      exact Option.some.inj ht ▸ unregisters_disconnectSession s env
    · cases hv
  | stop =>
    obtain rfl := Option.some.inj hv
    simp [stop, hstarted] at hstarted'

theorem accept_started (v : WebServer) (m : Uninitialised) : (v.accept m).started = v.started := by
  unfold accept
  split_ifs <;> rfl

theorem started_next {e : Event} (hv : v.next e = some v') (h : v'.started = true) :
    v.started = true := by
  cases e with
  | session r e => exact (onSession_accepts (onSession_next hv)).2 ▸ h
  | completeAccept i failed =>
    simp only [WebServer.next, completeAccept] at hv
    split at hv
    · exact (onSession_accepts hv).2 ▸ h
    · cases hv
  | acceptHandler i bufferSize m =>
    simp only [WebServer.next, acceptHandler] at hv
    split at hv
    · unfold asyncAcceptHandler at hv
      split_ifs at hv
      · obtain rfl := Option.some.inj hv
        exact h
      · obtain ⟨v₁, hv₁, rfl⟩ := Option.map_eq_some_iff.mp hv
        have hstarted₁ : v₁.started = true := (accept_started (v₁.asyncWait _) m).symm.trans h
        exact (onSession_accepts hv₁).2.symm.trans hstarted₁
    · cases hv
  | expire i =>
    simp only [WebServer.next, expire] at hv
    split at hv
    · obtain rfl := Option.some.inj hv
      exact h
    · cases hv
  | timerHandler i env =>
    simp only [WebServer.next, timerHandler] at hv
    split at hv
    · exact (onSession_accepts hv).2 ▸ h
    · cases hv
  | stop =>
    obtain rfl := Option.some.inj hv
    unfold stop at h
    split_ifs at h
    exact h

theorem accepting_listening (m : Uninitialised) : (listening.accept m).Accepting :=
  accepting_accept rfl rfl (fun _ _ hr => by simp [listening] at hr) m

/-- In every run after the first `accept` in which no accept fails, while the server is started:
one accept is outstanding, and every session in `sessions_` is the one being accepted or a
connected one. -/
theorem server_keeps_accepting {m : Uninitialised} {ts : List (Transition WebServer Event)}
    (hrun : Run (listening.accept m) ts v)
    (hok : ∀ tr ∈ ts, ∀ i, tr.event ≠ .completeAccept i true) (hstarted : v.started = true) :
    ∃ a, v.accepts = [a] ∧ ∀ key r, v.sessions.lookup key = some r →
      r = a.session ∨ ∃ s, v.objects[r]? = some s ∧ s.connected = true := by
  have hinv := (hrun.invariant (I := fun v => v.started = true → v.Accepting)
    (fun _ => accepting_listening m) fun tr htr hnext hbefore hafter =>
      (hbefore (started_next hnext hafter)).next (started_next hnext hafter) (hok tr htr) hnext
        hafter).1 hstarted
  obtain ⟨a, haccepts, -⟩ := hinv.accepts
  refine ⟨a, haccepts, fun key r hr => ?_⟩
  obtain ⟨s, hs, -, hstate⟩ := hinv.registered key r hr
  exact hstate.imp (fun hmem => by simpa [haccepts] using hmem)
    fun hconnected => ⟨s, hs, hconnected⟩

section FailedAccept

def firstAcceptEvents (failed : Bool) : List Event :=
  [.completeAccept 0 failed, .acceptHandler 0 64 zeroed]

theorem server_keeps_accepting_firstAccept :
    ∃ ts v, exec next (listening.accept zeroed) (firstAcceptEvents false) = some (ts, v) ∧
      ∃ a, v.accepts = [a] ∧ ∀ key r, v.sessions.lookup key = some r →
        r = a.session ∨ ∃ s, v.objects[r]? = some s ∧ s.connected = true := by
  obtain ⟨⟨ts, v⟩, hrun⟩ :
      ∃ r, exec next (listening.accept zeroed) (firstAcceptEvents false) = some r := ⟨_, rfl⟩
  have hok : ∀ tr ∈ ts, ∀ i, tr.event ≠ .completeAccept i true :=
    Transitions.Run.forall_of_exec (P := fun e => ∀ i, e ≠ .completeAccept i true) hrun (by
      simp [firstAcceptEvents])
  have hstarted : v.started = true := by
    have hend : (exec next (listening.accept zeroed) (firstAcceptEvents false)).map
        (fun r => r.2.started) = some true := rfl
    rwa [hrun, Option.map_some, Option.some.injEq] at hend
  exact ⟨ts, v, hrun, server_keeps_accepting (Transitions.Run.of_exec hrun).1 hok hstarted⟩

/-- After an accept that fails no accept is outstanding, and its session stays in `sessions_`. -/
theorem failed_accept_ends_accepting :
    ∃ ts v, Run (listening.accept zeroed) ts v ∧ v.started = true ∧ v.accepts = [] ∧
      v.sessions.lookup 1 = some 0 ∧ v.objects.map (·.connected) = [false] := by
  have hend : (exec next (listening.accept zeroed) (firstAcceptEvents true)).map (fun r =>
      (r.2.started, r.2.accepts, r.2.sessions.lookup 1, r.2.objects.map (·.connected))) =
        some (true, [], some 0, [false]) := by
    decide
  obtain ⟨⟨ts, v⟩, hrun, hend⟩ := Option.map_eq_some_iff.mp hend
  simp only [Prod.mk.injEq] at hend
  exact ⟨ts, v, (Transitions.Run.of_exec hrun).1, hend⟩

end FailedAccept

end WebServer

end Webcrown.Server
