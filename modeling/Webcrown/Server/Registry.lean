import Webcrown.Server.SessionTraces

/-!
# The registry of sessions

`sessions_` of the server holds a session from the `accept` that makes it until it is
disconnected, under an id that no other session has. Each session erases its own entry, and
erases it once.
-/

namespace Webcrown.Server

open Common Http Transitions

/-- What `unregister_session` has found, each time that the session called it. -/
def Session.erasures (s : Session) : List Bool :=
  s.log.filterMap fun
    | .unregister found => some found
    | _ => none

namespace State

variable {s t u : State} {env : Env} {thread : Thread} {e : Event}

/-- A handler of a session leaves `sessions_` as it is, or it disconnects the session and erases
its entry. -/
structure Unlists (s t : State) : Prop where
  sessionId : t.sessionId = s.sessionId
  outcome : (t.connected = true → s.connected = true) ∧ t.sessions = s.sessions ∧
      t.erasures = s.erasures ∨
    s.connected = true ∧ t.connected = false ∧ t.sessions = s.sessions.erase s.sessionId ∧
      t.erasures = s.erasures ++ [decide (s.sessionId ∈ s.sessions)]

theorem Unlists.of_standing (h : t.standing = s.standing) : Unlists s t :=
  have hlog : t.log = s.log := congrArg Standing.log h
  ⟨congrArg Standing.sessionId h, .inl ⟨fun hconnected =>
    (congrArg Standing.connected h).symm.trans hconnected, congrArg Standing.sessions h,
    by rw [Session.erasures, Session.erasures, hlog]⟩⟩

theorem Unlists.refl (s : State) : Unlists s s := .of_standing rfl

theorem Unlists.trans (h : Unlists s t) (h' : Unlists t u) : Unlists s u := by
  refine ⟨h'.sessionId.trans h.sessionId, ?_⟩
  rcases h.outcome with ⟨hback, hsessions, herasures⟩ | ⟨hconnected, hend, hsessions, herasures⟩
  · rcases h'.outcome with
      ⟨hback', hsessions', herasures'⟩ | ⟨hconnected', hend', hsessions', herasures'⟩
    · exact .inl ⟨hback ∘ hback', hsessions'.trans hsessions, herasures'.trans herasures⟩
    · rw [h.sessionId, hsessions] at hsessions' herasures'
      exact .inr ⟨hback hconnected', hend', hsessions', herasures'.trans (by rw [herasures])⟩
  · rcases h'.outcome with ⟨hback', hsessions', herasures'⟩ | ⟨hconnected', -⟩
    · refine .inr ⟨hconnected, ?_, hsessions'.trans hsessions, herasures'.trans herasures⟩
      by_contra hu
      rw [hback' (by simpa using hu)] at hend
      cases hend
    · rw [hend] at hconnected'
      cases hconnected'

theorem unlists_disconnectHandler (s : State) : Unlists s (s.disconnectHandler env) := by
  rcases disconnectHandler_cases s env with h | ⟨hconnected, h⟩ <;> rw [h]
  · exact ⟨rfl, .inl ⟨id, rfl, rfl⟩⟩
  · exact ⟨rfl, .inr ⟨hconnected, rfl, rfl, by simp [Session.erasures, disconnected]⟩⟩

theorem unlists_disconnect (s : State) : Unlists s (s.disconnect thread env) := by
  unfold disconnect
  split_ifs
  · exact .refl s
  · cases thread with
    | io => exact unlists_disconnectHandler s
    | other => exact .of_standing rfl

theorem unlists_sendAsync {buffer : ByteString} (h : s.sendAsync thread env buffer = some t) :
    Unlists s t := by
  by_cases hbuffer : buffer = []
  · rcases sendAsync_cases h with ⟨-, rfl⟩ | ⟨hne, -⟩
    · exact unlists_disconnect s
    · exact absurd hbuffer hne
  · exact .of_standing (standing_sendAsync hbuffer h)

theorem unlists_tryReceive (s : State) : Unlists s s.tryReceive := by
  unfold tryReceive
  split_ifs
  · exact .refl s
  · exact .refl s
  · exact ⟨rfl, .inl ⟨id, rfl, rfl⟩⟩

theorem unlists_record (s : State) {a : Action} (ha : ∀ found, a ≠ .unregister found) :
    Unlists s (s.record a) := by
  refine ⟨rfl, .inl ⟨id, rfl, ?_⟩⟩
  cases a with
  | unregister found => exact absurd rfl (ha found)
  | parse connected => simp [Session.erasures, record]
  | execute connected => simp [Session.erasures, record]

theorem unlists_onReceive {respond : Respond} {chunk : Chunk}
    (h : s.onReceive env respond chunk = some t) : Unlists s t := by
  obtain ⟨r, -, hcases⟩ := onReceive_cases h
  have hparsed : Unlists s (s.parsed r.parser) :=
    (unlists_record s fun _ h => by cases h).trans ⟨rfl, .inl ⟨id, rfl, rfl⟩⟩
  rcases hcases with rfl | rfl | ⟨request, text, u, -, -, hsend, rfl⟩
  · exact hparsed.trans (unlists_disconnect _)
  · exact hparsed
  · exact ((hparsed.trans (unlists_record _ fun _ h => by cases h)).trans
      (unlists_sendAsync hsend)).trans (unlists_disconnect u)

theorem unlists_readHandler {i : ℕ} {respond : Respond} (h : s.readHandler i env respond = some t) :
    Unlists s t := by
  have htake : Unlists s (s.takeRead i) := ⟨rfl, .inl ⟨id, rfl, rfl⟩⟩
  rcases readHandler_cases h with
    ⟨-, rfl⟩ | ⟨chunk, -, ⟨-, rfl⟩ | ⟨-, received, size, u, hreceive, rfl⟩⟩
  · exact htake.trans (unlists_disconnect _)
  · exact htake.trans (unlists_tryReceive _)
  · have hcount : Unlists s { s.takeRead i with bytesReceived := received } :=
      ⟨rfl, .inl ⟨id, rfl, rfl⟩⟩
    have hsize : Unlists u { u with receiveBufferSize := size } := .of_standing rfl
    exact ((hcount.trans (unlists_onReceive hreceive)).trans hsize).trans (unlists_tryReceive _)

theorem unlists_next (h : s.next e = some t) : Unlists s t := by
  cases e with
  | completeRead i result =>
    obtain ⟨-, rfl, -⟩ := completeRead_cases h
    exact ⟨rfl, .inl ⟨id, rfl, rfl⟩⟩
  | completeWrite i result =>
    obtain ⟨-, requested, -, -, rfl⟩ := completeWrite_cases h
    exact .of_standing rfl
  | readHandler i env respond => exact unlists_readHandler h
  | writeHandler i env =>
    obtain ⟨requested, r, -, ⟨-, rfl⟩ | ⟨-, -, rfl⟩ | ⟨-, -, rfl⟩⟩ := writeHandler_cases h
    · exact .of_standing rfl
    · have hadvance : Unlists s ((s.reportWrite i requested r).advance r.size) := .of_standing rfl
      exact hadvance.trans (unlists_disconnect _)
    · exact .of_standing (standing_trySend _)
  | trySend env =>
    obtain rfl := next_trySend h
    exact .of_standing (standing_trySend _)
  | disconnectHandler env =>
    obtain rfl := next_disconnectHandler h
    have hqueue : Unlists s { s with disconnects := s.disconnects - 1 } := .of_standing rfl
    exact hqueue.trans (unlists_disconnectHandler _)
  | disconnectSession env failed =>
    obtain rfl := Option.some.inj h
    rw [disconnectSession_eq]
    exact unlists_disconnect s
  | sendAsync thread env buffer => exact unlists_sendAsync h
  | disconnect thread env =>
    obtain rfl := Option.some.inj h
    exact unlists_disconnect s

end State

namespace WebServer

variable {v v' : WebServer} {r : SessionRef} {key : UInt64}

/-- A session that has erased nothing, or one that has erased its entry and is disconnected. -/
def Enlisted (s : Session) : Prop :=
  s.erasures = [] ∨ s.erasures = [true] ∧ s.connected = false

/-- `sessions_` holds the sessions that have erased nothing, each under its own number. -/
structure Registry (v : WebServer) : Prop where
  lastSessionId : v.lastSessionId = UInt64.ofNat v.objects.length
  sessionId : ∀ r s, v.objects[r]? = some s → s.sessionId = UInt64.ofNat (r + 1) ∧ Enlisted s
  lookup : ∀ key r, v.sessions.lookup key = some r ↔
    ∃ s, v.objects[r]? = some s ∧ s.sessionId = key ∧ s.erasures = []
  /-- a session that is being accepted has not been connected -/
  pending : ∀ r ∈ v.accepts.map Accept.session, ∀ s, v.objects[r]? = some s → s.erasures = []

theorem ofNat_succ_inj {i j n : ℕ} (hi : i < n) (hj : j < n) (hn : n < 2 ^ 64)
    (h : UInt64.ofNat (i + 1) = UInt64.ofNat (j + 1)) : i = j := by
  have hnat := congrArg UInt64.toNat h
  rw [UInt64.toNat_ofNat_of_lt' (by simp only [UInt64.size]; omega),
    UInt64.toNat_ofNat_of_lt' (by simp only [UInt64.size]; omega)] at hnat
  exact Nat.succ.inj hnat

theorem Registry.ref_unique (h : v.Registry) (hcount : v.objects.length < 2 ^ 64)
    {r r' : SessionRef} {s s' : Session} (hs : v.objects[r]? = some s)
    (hs' : v.objects[r']? = some s') (hid : s.sessionId = s'.sessionId) : r = r' := by
  obtain ⟨hr, -⟩ := List.getElem?_eq_some_iff.mp hs
  obtain ⟨hr', -⟩ := List.getElem?_eq_some_iff.mp hs'
  rw [(h.sessionId r s hs).1, (h.sessionId r' s' hs').1] at hid
  exact ofNat_succ_inj hr hr' hcount hid

theorem Registry.kept {s t : Session} (h : v.Registry) (hs : v.objects[r]? = some s)
    (hid : t.sessionId = s.sessionId) (herasures : t.erasures = s.erasures)
    (hend : Enlisted s → Enlisted t) : Registry { v with objects := v.objects.set r t } := by
  have hget : ∀ r', (v.objects.set r t)[r']? = if r' = r then some t else v.objects[r']? := by
    intro r'
    rw [List.getElem?_set, if_congr eq_comm rfl rfl]
    split_ifs with hr hlt
    · rfl
    · exact absurd (List.getElem?_eq_some_iff.mp hs).1 hlt
    · rfl
  have hsame : ∀ (key : UInt64) (r' : SessionRef),
      (∃ s', v.objects[r']? = some s' ∧ s'.sessionId = key ∧ s'.erasures = []) ↔
        ∃ s', (v.objects.set r t)[r']? = some s' ∧ s'.sessionId = key ∧ s'.erasures = [] := by
    intro key r'
    rw [hget]
    split_ifs with hr
    · rw [hr]
      constructor
      · rintro ⟨s', hs', hkey, hnil⟩
        obtain rfl : s = s' := Option.some.inj (hs.symm.trans hs')
        exact ⟨t, rfl, hid.trans hkey, herasures.trans hnil⟩
      · rintro ⟨t', ht', hkey, hnil⟩
        obtain rfl := Option.some.inj ht'
        exact ⟨s, hs, hid.symm.trans hkey, herasures.symm.trans hnil⟩
    · rfl
  refine ⟨by rw [List.length_set]; exact h.lastSessionId, fun r' s' hs' => ?_, fun key r' => ?_,
    fun r' hr' s' hs' => ?_⟩
  · rw [hget] at hs'
    split_ifs at hs' with hr
    · obtain rfl := Option.some.inj hs'
      rw [hr, hid]
      exact (h.sessionId r s hs).imp id hend
    · exact h.sessionId r' s' hs'
  · exact (h.lookup key r').trans (hsame key r')
  · rw [hget] at hs'
    split_ifs at hs' with hr
    · obtain rfl := Option.some.inj hs'
      rw [herasures]
      exact h.pending r' hr' s (hr ▸ hs)
    · exact h.pending r' hr' s' hs'

/-- The handler that disconnects a session erases its entry and no other. -/
theorem Registry.erased {s t : Session} (h : v.Registry) (hcount : v.objects.length < 2 ^ 64)
    (hnot : r ∉ v.accepts.map Accept.session) (hs : v.objects[r]? = some s)
    (hconnected : s.connected = true) (hid : t.sessionId = s.sessionId)
    (hend : t.connected = false)
    (herasures : t.erasures = s.erasures ++ [decide (s.sessionId ∈ v.sessions)]) :
    Registry { v with
      objects := v.objects.set r t, sessions := v.sessions.erase s.sessionId } := by
  have hnone : s.erasures = [] := by
    rcases (h.sessionId r s hs).2 with hnone | ⟨-, hold⟩
    · exact hnone
    · rw [hold] at hconnected
      cases hconnected
  have hmem : s.sessionId ∈ v.sessions :=
    Finmap.mem_of_lookup_eq_some ((h.lookup s.sessionId r).mpr ⟨s, hs, rfl, hnone⟩)
  have hone : t.erasures = [true] := by
    rw [herasures, hnone, decide_eq_true hmem, List.nil_append]
  have hlt : r < v.objects.length := (List.getElem?_eq_some_iff.mp hs).1
  refine ⟨by rw [List.length_set]; exact h.lastSessionId, fun r' s' hs' => ?_, fun key r' => ?_,
    fun r' hr' s' hs' => ?_⟩
  · by_cases hr : r' = r
    · rw [hr, List.getElem?_set_self hlt] at hs'
      obtain rfl := Option.some.inj hs'
      rw [hr, hid]
      exact ⟨(h.sessionId r s hs).1, .inr ⟨hone, hend⟩⟩
    · rw [List.getElem?_set_ne (Ne.symm hr)] at hs'
      exact h.sessionId r' s' hs'
  · by_cases hr : r' = r
    · rw [hr, List.getElem?_set_self hlt]
      constructor
      · intro hlookup
        by_cases hkey : key = s.sessionId
        · rw [hkey, Finmap.lookup_erase] at hlookup
          cases hlookup
        · rw [Finmap.lookup_erase_ne hkey, h.lookup key r] at hlookup
          obtain ⟨s', hs', hid', -⟩ := hlookup
          obtain rfl : s = s' := Option.some.inj (hs.symm.trans hs')
          exact absurd hid'.symm hkey
      · rintro ⟨t', ht', -, hnil⟩
        obtain rfl := Option.some.inj ht'
        rw [hone] at hnil
        cases hnil
    · rw [List.getElem?_set_ne (Ne.symm hr)]
      by_cases hkey : key = s.sessionId
      · rw [hkey, Finmap.lookup_erase]
        refine iff_of_false (fun hlookup => by cases hlookup) ?_
        rintro ⟨s', hs', hid', -⟩
        exact hr (h.ref_unique hcount hs' hs hid')
      · rw [Finmap.lookup_erase_ne hkey]
        exact h.lookup key r'
  · have hr : r' ≠ r := fun hr => hnot (hr ▸ hr')
    rw [List.getElem?_set_ne (Ne.symm hr)] at hs'
    exact h.pending r' hr' s' hs'

theorem Registry.onSession {f : State → Option State} (h : v.Registry) (hpending : v.Pending)
    (hcount : v.objects.length < 2 ^ 64) (hf : ∀ s t, f s = some t → State.Unlists s t)
    (hv : v.onSession r f = some v') : v'.Registry := by
  obtain ⟨s, t, hs, ht, rfl⟩ := onSession_cases hv
  obtain ⟨hid, ⟨hback, hsessions, herasures⟩ | ⟨hconnected, hend, hsessions, herasures⟩⟩ :=
    hf _ _ ht
  · rw [hsessions]
    refine h.kept hs hid herasures fun hold => ?_
    rw [Enlisted, herasures]
    refine hold.imp id (And.imp id fun hold => ?_)
    by_contra ht
    exact absurd (hback (by simpa using ht)) (by simp [hold])
  · rw [hsessions]
    refine h.erased hcount (fun hmem => ?_) hs hconnected hid hend herasures
    obtain ⟨s', hs', hnew⟩ := hpending.isNew r hmem
    obtain rfl : s = s' := Option.some.inj (hs.symm.trans hs')
    have hnot : s.connected = false := (State.isNew_iff (s := ⟨s, v.sessions⟩).mp hnew).1
    rw [hnot] at hconnected
    cases hconnected

theorem getElem?_append_singleton_iff {α : Type*} {xs : List α} {x y : α} {i : ℕ} :
    (xs ++ [x])[i]? = some y ↔ xs[i]? = some y ∨ i = xs.length ∧ y = x := by
  rcases lt_trichotomy i xs.length with hi | rfl | hi
  · rw [List.getElem?_append_left hi]
    exact ⟨.inl, fun h => h.resolve_right fun h => absurd h.1 (Nat.ne_of_lt hi)⟩
  · simp [eq_comm]
  · rw [List.getElem?_append_right hi.le, List.getElem?_eq_none hi.le, List.getElem?_singleton,
      if_neg (Nat.sub_ne_zero_of_lt hi)]
    exact iff_of_false (fun h => by cases h) fun h =>
      h.elim (fun h => by cases h) fun h => absurd h.1 (Nat.ne_of_gt hi)

theorem Registry.accept (h : v.Registry) (m : Uninitialised)
    (hcount : (v.accept m).objects.length < 2 ^ 64) : (v.accept m).Registry := by
  cases hstarted : v.started with
  | false =>
    rw [WebServer.accept, hstarted]
    exact h
  | true =>
    have hnext : v.lastSessionId + 1 = UInt64.ofNat (v.objects.length + 1) := by
      rw [h.lastSessionId, UInt64.ofNat_add]
      rfl
    have hfull : v.objects.length + 1 < 2 ^ 64 := by
      rw [objects_accept, hstarted, if_pos rfl, List.length_append] at hcount
      exact hcount
    have hfree : ∀ (r : SessionRef) (s : Session), v.objects[r]? = some s →
        s.sessionId ≠ UInt64.ofNat (v.objects.length + 1) := by
      intro r s hs hid
      obtain ⟨hr, -⟩ := List.getElem?_eq_some_iff.mp hs
      rw [(h.sessionId r s hs).1] at hid
      exact Nat.ne_of_lt hr
        (ofNat_succ_inj (Nat.lt_succ_of_lt hr) (Nat.lt_succ_self _) hfull hid)
    have hnew : UInt64.ofNat (v.objects.length + 1) ∉ v.sessions := by
      intro hmem
      obtain ⟨r, hr⟩ := Finmap.mem_iff.mp hmem
      obtain ⟨s, hs, hid, -⟩ := (h.lookup _ r).mp hr
      exact hfree r s hs hid
    have haccept : v.accept m = { v with
        lastSessionId := UInt64.ofNat (v.objects.length + 1)
        objects := v.objects ++ [Session.fresh (UInt64.ofNat (v.objects.length + 1)) m]
        sessions := v.sessions.insert (UInt64.ofNat (v.objects.length + 1)) v.objects.length
        accepts := v.accepts ++ [⟨v.objects.length, none⟩] } := by
      simp only [WebServer.accept, hstarted, createSession, registerSession, hnext, if_neg hnew,
        Bool.not_true, Bool.false_eq_true, if_false]
    rw [haccept]
    have hget : ∀ (r : SessionRef) (s : Session),
        (v.objects ++ [Session.fresh (UInt64.ofNat (v.objects.length + 1)) m])[r]? = some s ↔
          v.objects[r]? = some s ∨
            r = v.objects.length ∧ s = Session.fresh (UInt64.ofNat (v.objects.length + 1)) m :=
      fun r s => getElem?_append_singleton_iff
    refine ⟨by rw [List.length_append]; rfl, fun r s hs => ?_, fun key r => ?_,
      fun r hr s hs => ?_⟩
    · rcases (hget r s).mp hs with hs | ⟨rfl, rfl⟩
      · exact h.sessionId r s hs
      · exact ⟨rfl, .inl rfl⟩
    · by_cases hkey : key = UInt64.ofNat (v.objects.length + 1)
      · rw [hkey, Finmap.lookup_insert]
        constructor
        · intro hr
          obtain rfl := Option.some.inj hr
          exact ⟨_, (hget _ _).mpr (.inr ⟨rfl, rfl⟩), rfl, rfl⟩
        · rintro ⟨s, hs, hid, -⟩
          rcases (hget r s).mp hs with hs | ⟨rfl, -⟩
          · exact absurd hid (hfree r s hs)
          · rfl
      · rw [Finmap.lookup_insert_of_ne _ hkey, h.lookup key r]
        constructor
        · rintro ⟨s, hs, hrest⟩
          exact ⟨s, (hget r s).mpr (.inl hs), hrest⟩
        · rintro ⟨s, hs, hid, hnil⟩
          rcases (hget r s).mp hs with hs | ⟨rfl, rfl⟩
          · exact ⟨s, hs, hid, hnil⟩
          · exact absurd hid.symm hkey
    · rw [List.map_append, List.mem_append] at hr
      rcases (hget r s).mp hs with hs | ⟨rfl, rfl⟩
      · rcases hr with hr | hr
        · exact h.pending r hr s hs
        · obtain rfl := List.mem_singleton.mp hr
          rw [List.getElem?_eq_none (le_refl _)] at hs
          cases hs
      · rfl

theorem Registry.of_accepts (h : v.Registry) {accepts : List Accept}
    (hsub : ∀ r ∈ accepts.map Accept.session, r ∈ v.accepts.map Accept.session) :
    Registry { v with accepts := accepts } :=
  ⟨h.lastSessionId, h.sessionId, h.lookup, fun r hr => h.pending r (hsub r hr)⟩

theorem connect_keeps (s : State) (bufferSize : ℕ) :
    (s.connect bufferSize).sessionId = s.sessionId ∧
      (s.connect bufferSize).sessions = s.sessions ∧
      (s.connect bufferSize).erasures = s.erasures := by
  refine ⟨s.sessionId_connect bufferSize, s.sessions_connect bufferSize, ?_⟩
  unfold State.connect State.tryReceive
  split_ifs <;> rfl

theorem Registry.acceptHandler {i bufferSize : ℕ} {m : Uninitialised} (h : v.Registry)
    (hcount : v'.objects.length < 2 ^ 64) (hv : v.acceptHandler i bufferSize m = some v') :
    v'.Registry := by
  unfold WebServer.acceptHandler at hv
  split at hv
  · rename_i r' failed hget
    have hmem : r' ∈ v.accepts.map Accept.session :=
      List.mem_map_of_mem (List.mem_of_getElem? hget)
    have herase : Registry { v with accepts := v.accepts.eraseIdx i } :=
      h.of_accepts fun r hr => ((List.eraseIdx_sublist v.accepts i).map Accept.session).mem hr
    unfold asyncAcceptHandler at hv
    split_ifs at hv
    · obtain rfl := Option.some.inj hv
      exact herase
    · obtain ⟨w, hw, rfl⟩ := Option.map_eq_some_iff.mp hv
      obtain ⟨s, u, hs, hu, rfl⟩ := onSession_cases hw
      obtain rfl := Option.some.inj hu
      obtain ⟨hid, hsessions, herasures⟩ := connect_keeps ⟨s, v.sessions⟩ bufferSize
      have hconnect := herase.kept hs hid herasures fun _ =>
        .inl (herasures.trans (h.pending r' hmem s hs))
      rw [hsessions] at hcount ⊢
      have hnext := Registry.accept (v := asyncWait r' { v with
        accepts := v.accepts.eraseIdx i
        objects := v.objects.set r' (State.connect bufferSize ⟨s, v.sessions⟩).toSession })
        ⟨hconnect.lastSessionId, hconnect.sessionId, hconnect.lookup, hconnect.pending⟩ m hcount
      exact ⟨hnext.lastSessionId, hnext.sessionId, hnext.lookup, hnext.pending⟩
  · cases hv

theorem Registry.next {e : Event} (h : v.Registry) (hpending : v.Pending)
    (hcount : v'.objects.length < 2 ^ 64) (hv : v.next e = some v') : v'.Registry := by
  have hbefore : v.objects.length < 2 ^ 64 := (length_next hv).trans_lt hcount
  cases e with
  | session r' e =>
    exact h.onSession hpending hbefore (fun s t ht => State.unlists_next ht) (onSession_next hv)
  | completeAccept i failed =>
    simp only [WebServer.next, WebServer.completeAccept] at hv
    split at hv
    · rename_i r' hget
      have hmap : (v.accepts.set i ⟨r', some failed⟩).map Accept.session =
          v.accepts.map Accept.session := map_set_eq_map hget rfl
      have hset : Registry { v with accepts := v.accepts.set i ⟨r', some failed⟩ } :=
        h.of_accepts fun r hr => hmap ▸ hr
      obtain ⟨s, u, hs, hu, rfl⟩ := onSession_cases hv
      obtain rfl := Option.some.inj hu
      exact hset.kept hs rfl rfl id
    · cases hv
  | acceptHandler i bufferSize m => exact h.acceptHandler hcount hv
  | expire i =>
    simp only [WebServer.next, WebServer.expire] at hv
    split at hv
    · obtain rfl := Option.some.inj hv
      exact ⟨h.lastSessionId, h.sessionId, h.lookup, h.pending⟩
    · cases hv
  | timerHandler i env =>
    simp only [WebServer.next, WebServer.timerHandler] at hv
    split at hv
    · have herase : Registry { v with timers := v.timers.eraseIdx i } :=
        ⟨h.lastSessionId, h.sessionId, h.lookup, h.pending⟩
      have hpending' : Pending { v with timers := v.timers.eraseIdx i } :=
        ⟨hpending.nodup, hpending.isNew, fun r hr => hpending.timers r
          (((List.eraseIdx_sublist v.timers i).map Timer.session).mem hr)⟩
      refine herase.onSession hpending' hbefore (fun s t ht => ?_) hv
      obtain rfl := Option.some.inj ht
      rw [State.disconnectSession_eq]
      exact State.unlists_disconnect s
    · cases hv
  | stop =>
    obtain rfl := Option.some.inj hv
    unfold stop
    split_ifs <;> exact ⟨h.lastSessionId, h.sessionId, h.lookup, h.pending⟩

theorem registry_listening (m : Uninitialised) : (listening.accept m).Registry :=
  Registry.accept (v := listening) ⟨rfl, fun r s hs => by simp [listening] at hs,
    fun key r => by simp [listening], fun r hr => by simp [listening] at hr⟩ m (by
      simp [accept, listening, createSession, registerSession])

/-- Over every run of the server that makes fewer than 2^64 sessions: the session made by the
`n`-th accept has the id `n`; `sessions_` holds, under their ids, exactly the sessions that have
not erased their entries; and each session erases its entry once at most, finds it then, and is
not connected any more. -/
theorem sessions_exact {m : Uninitialised} {ts : List (Transition WebServer Event)}
    (hrun : Run (listening.accept m) ts v) (hcount : v.objects.length < 2 ^ 64) :
    (∀ r s, v.objects[r]? = some s → s.sessionId = UInt64.ofNat (r + 1) ∧
        (s.erasures = [] ∨ s.erasures = [true] ∧ s.connected = false)) ∧
      ∀ key r, v.sessions.lookup key = some r ↔
        ∃ s, v.objects[r]? = some s ∧ s.sessionId = key ∧ s.erasures = [] := by
  have hregistry := (hrun.invariant
    (I := fun v => v.Pending ∧ (v.objects.length < 2 ^ 64 → v.Registry))
    ⟨pending_listening m, fun _ => registry_listening m⟩ fun tr _ hnext hbefore =>
      ⟨hbefore.1.next hnext, fun hcount =>
        (hbefore.2 ((length_next hnext).trans_lt hcount)).next hbefore.1 hcount hnext⟩).1.2 hcount
  exact ⟨hregistry.sessionId, hregistry.lookup⟩

theorem sessions_exact_firstAccept :
    ∃ ts v, exec next (listening.accept zeroed) (firstAcceptEvents false) = some (ts, v) ∧
      v.objects.length < 2 ^ 64 ∧
      (∀ r s, v.objects[r]? = some s → s.sessionId = UInt64.ofNat (r + 1) ∧
        (s.erasures = [] ∨ s.erasures = [true] ∧ s.connected = false)) ∧
      ∀ key r, v.sessions.lookup key = some r ↔
        ∃ s, v.objects[r]? = some s ∧ s.sessionId = key ∧ s.erasures = [] := by
  have hend : (exec next (listening.accept zeroed) (firstAcceptEvents false)).map
      (fun r => r.2.objects.length) = some 2 := rfl
  obtain ⟨⟨ts, v⟩, hrun, hlength⟩ := Option.map_eq_some_iff.mp hend
  have hcount : v.objects.length < 2 ^ 64 := by
    rw [show v.objects.length = 2 from hlength]
    decide
  exact ⟨ts, v, hrun, hcount, sessions_exact (Transitions.Run.of_exec hrun).1 hcount⟩

end WebServer

end Webcrown.Server
