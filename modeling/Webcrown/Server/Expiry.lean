import Webcrown.Server.Accepting

/-!
# The expiry timer

The timer of a session is destroyed when the accept handler returns, so no timer ever
runs out: every wait is aborted, and its handler, which does not look at its error,
disconnects the session if that is still connected.
-/

namespace Webcrown.Server

open Http Transitions

namespace WebServer

variable {v v' : WebServer} {r : SessionRef} {env : Env} {failed : Bool}

/-- Every wait has been aborted. -/
def Aborted (v : WebServer) : Prop := ∀ w ∈ v.timers, w.failed = some true

theorem Aborted.of_timers (h : v.Aborted) (htimers : v'.timers = v.timers) : v'.Aborted :=
  fun w hw => h w (htimers ▸ hw)

theorem onSession_timers {f : State → Option State} (hv : v.onSession r f = some v') :
    v'.timers = v.timers := by
  obtain ⟨s, t, -, -, rfl⟩ := onSession_cases hv
  rfl

theorem accept_timers (v : WebServer) (m : Uninitialised) : (v.accept m).timers = v.timers := by
  unfold accept
  split_ifs <;> rfl

theorem modify_length_append {α : Type*} (xs : List α) (x : α) (f : α → α) :
    (xs ++ [x]).modify xs.length f = xs ++ [f x] := by
  induction xs with
  | nil => rfl
  | cons y xs ih => simpa using ih

/-- The wait that the accept handler starts is aborted when it returns. -/
theorem Aborted.asyncAcceptHandler {bufferSize : ℕ} {m : Uninitialised} (h : v.Aborted)
    (hv : v.asyncAcceptHandler bufferSize m r failed = some v') : v'.Aborted := by
  unfold WebServer.asyncAcceptHandler at hv
  split_ifs at hv
  · obtain rfl := Option.some.inj hv
    exact h
  · obtain ⟨v₁, hv₁, rfl⟩ := Option.map_eq_some_iff.mp hv
    intro w hw
    have htimers : (((v₁.asyncWait r).accept m).destroyTimer v₁.timers.length).timers =
        v.timers ++ [⟨r, some true⟩] := by
      rw [← onSession_timers hv₁]
      simp only [destroyTimer, accept_timers, asyncWait, modify_length_append]
      rfl
    rw [htimers] at hw
    rcases List.mem_append.mp hw with hw | hw
    · exact h w hw
    · rw [List.mem_singleton.mp hw]

theorem Aborted.next {e : Event} (h : v.Aborted) (hv : v.next e = some v') : v'.Aborted := by
  cases e with
  | session r e => exact h.of_timers (onSession_timers (onSession_next hv))
  | completeAccept i failed =>
    simp only [WebServer.next, completeAccept] at hv
    split at hv
    · have htimers := onSession_timers hv
      exact h.of_timers htimers
    · cases hv
  | acceptHandler i bufferSize m =>
    simp only [WebServer.next, acceptHandler] at hv
    split at hv
    · exact Aborted.asyncAcceptHandler (v := { v with accepts := v.accepts.eraseIdx i }) h hv
    · cases hv
  | expire i =>
    simp only [WebServer.next, expire] at hv
    split at hv
    · rename_i hget
      have haborted := h _ (List.mem_of_getElem? hget)
      cases haborted
    · cases hv
  | timerHandler i env =>
    simp only [WebServer.next, timerHandler] at hv
    split at hv
    · intro w hw
      rw [onSession_timers hv] at hw
      exact h w (List.mem_of_mem_eraseIdx hw)
    · cases hv
  | stop =>
    obtain rfl := Option.some.inj hv
    unfold stop
    split_ifs <;> exact h

theorem aborted_run {m : Uninitialised} {ts : List (Transition WebServer Event)}
    (hrun : Run (listening.accept m) ts v) : ∀ tr ∈ ts, tr.before.Aborted := by
  have hstart : (listening.accept m).Aborted := fun w hw => by simp [accept_timers, listening] at hw
  exact fun tr htr =>
    ((hrun.invariant hstart fun tr _ hnext hbefore => hbefore.next hnext).2 tr htr).1

def Connected (v : WebServer) (r : SessionRef) : Prop :=
  ∃ s, v.objects[r]? = some s ∧ s.connected = true

/-- An event runs `disconnect_session` for the session `r`, whose wait has failed or not. -/
def RunsTimer (v : WebServer) (e : Event) (env : Env) (r : SessionRef) (failed : Bool) : Prop :=
  ∃ i, e = .timerHandler i env ∧ v.timers[i]? = some ⟨r, some failed⟩

theorem connected_disconnectSession {s : State} (h : s.connected = true) :
    (s.disconnectSession env).connected = true ↔ s.isOpen = true ∧ env.closeFails = true := by
  rw [State.disconnectSession_eq, State.disconnect_io_of_connected h]
  by_cases hclose : s.isOpen = true ∧ env.closeFails = true
  · rw [State.disconnectHandler_of_close_fails h hclose.1 hclose.2]
    exact iff_of_true h hclose
  · rw [State.disconnectHandler_of_connected h fun hopen => by simpa [hopen] using hclose]
    exact iff_of_false Bool.false_ne_true hclose

/-- The handler disconnects a connected session, unless closing its socket reports an error. -/
theorem RunsTimer.connected_iff {e : Event} (h : v.RunsTimer e env r failed) {s : Session}
    (hs : v.objects[r]? = some s) (hconnected : s.connected = true) (hv : v.next e = some v') :
    v'.Connected r ↔ s.isOpen = true ∧ env.closeFails = true := by
  obtain ⟨i, rfl, hget⟩ := h
  simp only [WebServer.next, timerHandler, hget] at hv
  obtain ⟨s', t, hs', ht, rfl⟩ := onSession_cases hv
  obtain rfl : s = s' := Option.some.inj (hs.symm.trans hs')
  obtain ⟨hlt, -⟩ := List.getElem?_eq_some_iff.mp hs
  have hset : Connected { v with
      timers := v.timers.eraseIdx i
      objects := v.objects.set r t.toSession
      sessions := t.sessions } r ↔ t.connected = true := by
    simp [Connected, List.getElem?_set_self hlt]
  obtain rfl := Option.some.inj ht
  exact hset.trans (connected_disconnectSession (s := ⟨s, v.sessions⟩) hconnected)

/-- In every run after the first `accept`: a timer's handler disconnects a session only after the
timer has run out, exactly if no timer's handler ever runs while its session is connected and
closing the socket succeeds. -/
theorem expiry_iff {m : Uninitialised} {ts : List (Transition WebServer Event)}
    (hrun : Run (listening.accept m) ts v) :
    (∀ tr ∈ ts, ∀ env r failed, tr.before.RunsTimer tr.event env r failed →
        tr.before.Connected r → ¬ tr.after.Connected r → failed = false) ↔
      ∀ tr ∈ ts, ∀ env r failed, tr.before.RunsTimer tr.event env r failed →
        ∀ s, tr.before.objects[r]? = some s → s.connected = true →
          s.isOpen = true ∧ env.closeFails = true := by
  constructor
  · intro h tr htr env r failed hruns s hs hconnected
    rw [← hruns.connected_iff hs hconnected (hrun.step_of_mem htr)]
    by_contra hend
    obtain rfl := h tr htr env r failed hruns ⟨s, hs, hconnected⟩ hend
    obtain ⟨i, -, hget⟩ := hruns
    have haborted := aborted_run hrun tr htr _ (List.mem_of_getElem? hget)
    cases haborted
  · rintro h tr htr env r failed hruns ⟨s, hs, hconnected⟩ hend
    have hkept := h tr htr env r failed hruns s hs hconnected
    rw [← hruns.connected_iff hs hconnected (hrun.step_of_mem htr)] at hkept
    exact absurd hkept hend

section AbortedWait

theorem run_abortedWait :
    ∃ ts v v', Run (listening.accept zeroed) ts v ∧
      v.RunsTimer (.timerHandler 0 ⟨0, false⟩) ⟨0, false⟩ 0 true ∧ v.Connected 0 ∧
      v.next (.timerHandler 0 ⟨0, false⟩) = some v' ∧ ¬ v'.Connected 0 := by
  have hend : (exec next (listening.accept zeroed) (firstAcceptEvents false)).map (fun r =>
      (r.2.timers[0]?, r.2.objects[0]?.map (·.connected),
        (r.2.next (.timerHandler 0 ⟨0, false⟩)).map fun v' => v'.objects[0]?.map (·.connected))) =
      some (some ⟨0, some true⟩, some true, some (some false)) := by
    decide
  obtain ⟨⟨ts, v⟩, hrun, hend⟩ := Option.map_eq_some_iff.mp hend
  simp only [Prod.mk.injEq, Option.map_eq_some_iff] at hend
  obtain ⟨htimer, hconnected, v', hnext, s, hs, hend⟩ := hend
  refine ⟨ts, v, v', (Transitions.Run.of_exec hrun).1, ⟨0, rfl, htimer⟩, hconnected, hnext, ?_⟩
  rintro ⟨s', hs', hconnected'⟩
  obtain rfl : s = s' := Option.some.inj (hs.symm.trans hs')
  rw [hend] at hconnected'
  cases hconnected'

theorem expiry_iff_abortedWait :
    ∃ ts v, Run (listening.accept zeroed) ts v ∧
      (∃ tr ∈ ts, tr.before.RunsTimer tr.event ⟨0, false⟩ 0 true ∧ tr.before.Connected 0 ∧
        ¬ tr.after.Connected 0) ∧
      ((∀ tr ∈ ts, ∀ env r failed, tr.before.RunsTimer tr.event env r failed →
          tr.before.Connected r → ¬ tr.after.Connected r → failed = false) ↔
        ∀ tr ∈ ts, ∀ env r failed, tr.before.RunsTimer tr.event env r failed →
          ∀ s, tr.before.objects[r]? = some s → s.connected = true →
            s.isOpen = true ∧ env.closeFails = true) := by
  obtain ⟨ts, v, v', hrun, hruns, hconnected, hnext, hend⟩ := run_abortedWait
  have hlonger := hrun.append (.cons hnext (.nil v'))
  exact ⟨_, v', hlonger, ⟨_, List.mem_append_right ts List.mem_cons_self, hruns, hconnected, hend⟩,
    expiry_iff hlonger⟩

/-- The first session is disconnected as soon as the handler of its aborted wait runs. -/
theorem aborted_wait_disconnects :
    ∃ ts v v', Run (listening.accept zeroed) ts v ∧
      v.RunsTimer (.timerHandler 0 ⟨0, false⟩) ⟨0, false⟩ 0 true ∧ v.Connected 0 ∧
      v.next (.timerHandler 0 ⟨0, false⟩) = some v' ∧ ¬ v'.Connected 0 :=
  run_abortedWait

end AbortedWait

end WebServer

end Webcrown.Server
