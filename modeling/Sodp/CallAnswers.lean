import Sodp.HandlerEffects

/-!
# The answer to a CALL

A call that is accepted is answered by one RESULT, behind the delta of its own change if the session
watches the key. Every other answer is an ERROR, which does not name the call. A client that got no
answer may send the call again: it is accepted again and changes nothing.
-/

namespace Sodp

theorem WriteHandle.capacity_send (h : WriteHandle) (msg : OutboundMsg) :
    (h.send msg).1.capacity = h.capacity := by
  rw [send]
  split_ifs <;> rfl

namespace SodpServer
open StateStore List Option

variable {srv : SodpServer} {session : Session} {frame : Frame} {now : ℕ} {request : Request}

/-- The calls that RESULT frames name. Every RESULT of the server says that the call succeeded. -/
def resultIds (msgs : List OutboundMsg) : List String :=
  msgs.filterMap fun msg => match msg with
    | .resultOk _ _ callId _ => some callId
    | _ => none

def newResults (srv after : SodpServer) (s : String) : List String :=
  resultIds ((after.handles s).queue.drop (srv.handles s).queue.length)

def sentCallId (frame : Frame) : Option String := (frame.body.get? "call_id").bind Value.asStr

/-- The stream on which the calling session gets the delta of its call. -/
def ownStream (srv : SodpServer) (session : Session) (call : Call) : Option ℕ :=
  if srv.state.opsOf call = [] then none else session.watchStreamId call.key

theorem broadcast_excluded (srv : SodpServer) (stateKey : String) (version : ℕ) (ops : List DeltaOp)
    (s : String) : (srv.broadcast stateKey version ops (some s)).handles s = srv.handles s := by
  have hfold : ∀ (subs : List Subscriber) (acc : Handles × List String),
      (∀ sub ∈ subs, sub.sessionId ≠ s) →
      (subs.foldl (FanoutBus.sendDelta version ops) acc).1 s = acc.1 s := by
    intro subs
    induction subs with
    | nil => exact fun _ _ => rfl
    | cons sub subs ih =>
      intro acc hsubs
      obtain ⟨hne, hrest⟩ := forall_mem_cons.mp hsubs
      rw [foldl_cons, ih _ hrest]
      exact Handles.send_of_ne acc.1 (Ne.symm hne) _
  refine hfold _ _ fun sub hsub => ?_
  exact fun heq => of_decide_eq_true (mem_filter.mp hsub).2 (congrArg some heq.symm)

theorem commit_handle (srv : SodpServer) (session : Session) (call : Call) :
    (srv.commit session call).1.handles session.id = match srv.ownStream session call with
      | none => srv.handles session.id
      | some sid => ((srv.handles session.id).send
          (.delta sid 0 (srv.state.globalVersion + 1) (srv.state.opsOf call))).1 := by
  rw [commit_eq, ownStream]
  split_ifs
  · rfl
  · rw [publish]
    cases session.watchStreamId call.key with
    | none => exact broadcast_excluded ..
    | some =>
      change (Handles.send _ session.id _).1 session.id = _
      rw [Handles.send_self, broadcast_excluded]

theorem newResults_reply {after : SodpServer} {id : String} {sent : List OutboundMsg}
    (hqueue : (after.handles id).queue = (srv.handles id).queue ++ sent)
    (hid : session.id = id) (msg : ℕ → OutboundMsg) :
    newResults srv (after.reply session msg).1 id = resultIds (sent ++
      if (srv.handles id).queue.length + sent.length < (after.handles id).capacity then
        [msg session.nextSeq.2] else []) := by
  subst hid
  rw [newResults]
  change resultIds (drop _ ((Handles.send _ session.id _).1 session.id).queue) = _
  rw [Handles.send_self, WriteHandle.queue_send, hqueue, length_append, append_assoc, drop_left]

theorem newResults_accepted (h : srv.acceptedRequest session frame now = some request) :
    newResults srv (srv.handleCall session frame now).1 session.id =
      if (srv.handles session.id).queue.length +
        (srv.ownStream session request.call).toList.length < (srv.handles session.id).capacity then
          [(sentCallId frame).getD "unknown"]
        else [] := by
  obtain ⟨session', htable, -, hcall⟩ := handleCall_cases srv session frame now
  rw [h] at hcall
  dsimp only at hcall
  have hid : (own session' request.presence).id = session.id :=
    (htable.trans (sameTable_own ..)).id
  have hhandle := commit_handle srv session' request.call
  have hstream : srv.ownStream session' request.call = srv.ownStream session request.call := by
    rw [ownStream, htable.watchStreamId, ownStream]
  rw [htable.id, hstream] at hhandle
  rw [hcall]
  cases hown : srv.ownStream session request.call with
  | none =>
    rw [hown] at hhandle
    have hqueue : ((srv.commit session' request.call).1.handles session.id).queue =
        (srv.handles session.id).queue ++ [] := by rw [hhandle, append_nil]
    rw [newResults_reply hqueue hid, hhandle, nil_append]
    exact apply_ite resultIds _ _ _
  | some =>
    rw [hown] at hhandle
    have hqueue := congrArg WriteHandle.queue hhandle
    have hcapacity := congrArg WriteHandle.capacity hhandle
    rw [WriteHandle.queue_send] at hqueue
    rw [WriteHandle.capacity_send] at hcapacity
    rw [newResults_reply hqueue hid, hcapacity, toList_some, length_singleton]
    by_cases hfull : (srv.handles session.id).queue.length < (srv.handles session.id).capacity
    · rw [if_pos hfull, length_singleton]
      split_ifs <;> rfl
    · rw [if_neg hfull, length_nil, Nat.add_zero, if_neg hfull, if_neg (by omega)]
      rfl

theorem newResults_refused (h : srv.acceptedRequest session frame now = none) :
    newResults srv (srv.handleCall session frame now).1 session.id = [] := by
  obtain ⟨_, htable, -, hcall⟩ := handleCall_cases srv session frame now
  rw [h] at hcall
  obtain ⟨_, _, hcall⟩ := hcall
  rw [hcall, newResults_reply (append_nil _).symm htable.id]
  split_ifs <;> rfl

theorem globalVersion_lt_exec_iff (s : StateStore) (call : Call) :
    s.globalVersion < (s.exec call).1.globalVersion ↔
      (call.value = none → (s.get call.key).isSome) := by
  rw [globalVersion_exec]
  cases call with
  | apply =>
    refine iff_of_true ?_ fun h => by cases h
    exact Nat.lt_succ_self _
  | delete key =>
    cases hget : s.get key with
    | none => simp [exec_delete_absent hget, Call.value, Call.key, hget]
    | some e =>
      have hentry : s.entries.get? key = some e := hget
      simp [exec, delete, hentry, hget, Call.value, Call.key, removeEntry]

/-- One RESULT names the call and the mutation is applied, exactly if the method and the key are
strings, the limiter and the ACL let the call pass, its arguments ask for a mutation that the schema
accepts, it has a `call_id`, a deletion meets a key, and the queue has room. -/
theorem one_result_iff (srv : SodpServer) (session : Session) (frame : Frame) (now : ℕ) :
    (∃ callId, sentCallId frame = some callId ∧
      newResults srv (srv.handleCall session frame now).1 session.id = [callId] ∧
      srv.state.globalVersion < (srv.handleCall session frame now).1.state.globalVersion) ↔
    ∃ name k request, (frame.body.get? "method").bind Value.asStr = some name ∧
      (session.allowWrite now).2 = true ∧
      (((frame.body.get? "args").getD .null).get? "state").bind Value.asStr = some k ∧
      srv.canWrite session k = true ∧
      Asks srv ((frame.body.get? "args").getD .null) k (.ofName name) request ∧
      (sentCallId frame).isSome ∧
      (request.call.value = none → (srv.state.get request.call.key).isSome) ∧
      (srv.handles session.id).queue.length + (srv.ownStream session request.call).toList.length <
        (srv.handles session.id).capacity := by
  have haccepted : ∀ request, srv.acceptedRequest session frame now = some request ↔ _ :=
    fun _ => acceptedRequest_eq_some_iff
  cases h : srv.acceptedRequest session frame now with
  | none =>
    simp only [newResults_refused h]
    refine iff_of_false (by simp) ?_
    rintro ⟨name, k, request, hname, hallow, hk, hwrite, hasks, -⟩
    cases h.symm.trans ((haccepted request).mpr ⟨name, k, hname, hallow, hk, hwrite, hasks⟩)
  | some request =>
    have hstate : (srv.handleCall session frame now).1.state = (srv.state.exec request.call).1 := by
      obtain ⟨_, -, -, hcall⟩ := handleCall_cases srv session frame now
      rw [h] at hcall
      rw [hcall]
      exact state_commit ..
    rw [newResults_accepted h, hstate, globalVersion_lt_exec_iff]
    constructor
    · rintro ⟨callId, hid, hresults, happlied⟩
      obtain ⟨name, k, hname, hallow, hk, hwrite, hasks⟩ := (haccepted request).mp h
      refine ⟨name, k, request, hname, hallow, hk, hwrite, hasks, by simp [hid], happlied, ?_⟩
      by_contra hroom
      rw [if_neg hroom] at hresults
      cases hresults
    · rintro ⟨name, k, other, hname, hallow, hk, hwrite, hasks, hid, happlied, hroom⟩
      have hother := (haccepted other).mpr ⟨name, k, hname, hallow, hk, hwrite, hasks⟩
      obtain rfl : request = other := some.inj (h.symm.trans hother)
      obtain ⟨callId, hid⟩ := isSome_iff_exists.mp hid
      exact ⟨callId, hid, by rw [if_pos hroom, hid]; rfl, happlied⟩

theorem unnamed_state_not_answered :
    let srv := (SodpServer.new.accept "s" 0).1
    let body := Value.ofFields [("call_id", .string "c"), ("method", .string "state.set")]
    let after := (srv.handleCall (srv.accept "s" 0).2 ⟨.call, 10, 1, body⟩ 0).1
    (after.handles "s").queue = [.error 10 1 400 "state.set: missing 'state' key"] ∧
      newResults srv after "s" = [] := by
  decide +kernel

/-! ### A call sent twice -/

variable {args : Value} {method : Method}

theorem schema_commit (srv : SodpServer) (session : Session) (call : Call) :
    (srv.commit session call).1.schema = srv.schema := by
  rw [commit_eq]
  split_ifs
  · rfl
  · exact (publish_rules ..).2

theorem prepare_again {once : SodpServer} (hschema : once.schema = srv.schema)
    (hmethod : method = .set ∨ method = .patch ∨ method = .setIn)
    (h : srv.prepare args method = .ok request)
    (hstored : (once.state.get request.call.key).map StateEntry.value = request.call.value) :
    once.prepare args method = .ok request ∧ request.call.value.isSome := by
  have haccepts : ∀ call, srv.Accepts call → once.Accepts call := by
    intro call hvalid
    cases call with
    | apply => rwa [Accepts, hschema]
    | delete => trivial
  obtain ⟨k, hk, hasks⟩ := prepare_eq_ok_iff.mp h
  rw [prepare_eq_ok_iff]
  cases hasks with
  | set hvalid => exact ⟨⟨k, hk, .set (haccepts _ hvalid)⟩, rfl⟩
  | patch hpatch hobject hvalue hvalid =>
    refine ⟨⟨k, hk, .patch hpatch hobject ?_ (haccepts _ hvalid)⟩, rfl⟩
    dsimp only [Call.key, Call.value] at hstored
    rw [hstored, Option.getD_some, ← hvalue, jsonMerge_idem]
  | setIn hpath hvalue hvalid =>
    refine ⟨⟨k, hk, .setIn hpath ?_ (haccepts _ hvalid)⟩, rfl⟩
    dsimp only [Call.key, Call.value] at hstored
    rw [valueOf, hstored, Option.getD_some, jsonSetIn_idem hvalue]
  | delete | presence => simp at hmethod

theorem retried_call_changes_nothing (session : Session)
    (hmethod : method = .set ∨ method = .patch ∨ method = .setIn)
    (h : srv.prepare args method = .ok request) :
    let once := (srv.commit session request.call).1
    let twice := (once.commit session request.call).1
    once.prepare args method = .ok request ∧ once.state.opsOf request.call = [] ∧
      (∀ key, (twice.state.get key).map StateEntry.value =
        (once.state.get key).map StateEntry.value) ∧
      twice.handles = once.handles ∧
      ∀ b p, jsonMerge (jsonMerge b p) p = jsonMerge b p := by
  intro once twice
  have hstored : (once.state.get request.call.key).map StateEntry.value = request.call.value := by
    rw [state_commit, content_exec, if_pos rfl]
  obtain ⟨hagain, hvalue⟩ := prepare_again (schema_commit srv session _) hmethod h hstored
  have hops : once.state.opsOf request.call = [] := by
    obtain ⟨value, hvalue⟩ := Option.isSome_iff_exists.mp hvalue
    rw [opsOf_eq_stepOps, hstored, hvalue]
    exact (Delta.diff_eq_nil_iff value value).mpr rfl
  refine ⟨hagain, hops, fun key => ?_, ?_, jsonMerge_idem⟩
  · rw [state_commit, content_exec_of_opsOf hops]
  · change (once.commit session request.call).1.handles = once.handles
    rw [commit_eq, if_pos hops]

def storedObject : SodpServer :=
  { SodpServer.new with state := (StateStore.new.apply "k" (.ofFields [("a", .bool true)])).1 }

theorem repeated_patch_has_no_ops :
    let args := Value.ofFields [("state", .string "k"), ("patch", .ofFields [("b", .bool false)])]
    ∃ request, storedObject.prepare args .patch = .ok request ∧
      request.call.value = some (.ofFields [("a", .bool true), ("b", .bool false)]) ∧
      (storedObject.commit (.new "s" 0 none none) request.call).1.state.opsOf
        request.call = [] := by
  intro args
  have hpatch : storedObject.prepare args .patch =
      .ok ⟨.apply "k" (jsonMerge (.ofFields [("a", .bool true)]) (.ofFields [("b", .bool false)])),
        none⟩ := rfl
  exact ⟨_, hpatch, by decide +kernel,
    (retried_call_changes_nothing _ (.inr (.inl rfl)) hpatch).2.1⟩

end SodpServer

end Sodp
