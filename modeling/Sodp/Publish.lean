import Sodp.Server

/-!
# What the handlers put into the queues

A delta is published to the subscribers of its key, and for a CALL to the calling
session on the stream of its own watch table. In every case a session receives at
most one DELTA for each stream, and the registry only ever loses subscriptions.
While no queue overflows each of them arrives and the registry stays as it is.
-/

namespace Sodp.SodpServer
open List Option StateStore

variable {srv : SodpServer} {session : Session} {stateKey : String} {version : ℕ}
  {ops : List DeltaOp} {s : String}

theorem send_cancelled (hc : (srv.handles s).cancelled = true) (sessionId : String)
    (msg : OutboundMsg) : ((srv.send sessionId msg).handles s).cancelled = true :=
  Handles.send_cancelled hc _ _

theorem broadcast_cancelled (hc : (srv.handles s).cancelled = true) (exclude : Option String) :
    ((srv.broadcast stateKey version ops exclude).handles s).cancelled = true :=
  FanoutBus.broadcastEncoded_cancelled hc _ _ _ _

theorem broadcast_sublist (srv : SodpServer) (stateKey : String) (version : ℕ)
    (ops : List DeltaOp) (exclude : Option String) (s : String) :
    (∀ k, ((srv.broadcast stateKey version ops exclude).fanout.streamsOf k s).Sublist
      (srv.fanout.streamsOf k s)) ∧ ∃ sent, sent.Sublist (if exclude = some s then []
        else (srv.fanout.streamsOf stateKey s).map fun sid => .delta sid 0 version ops) ∧
      ((srv.broadcast stateKey version ops exclude).handles s).queue =
        (srv.handles s).queue ++ sent :=
  FanoutBus.broadcastEncoded_sublist _ _ _ _ _ _ _

theorem broadcast_of_open {exclude : Option String}
    (hopen : ((srv.broadcast stateKey version ops exclude).handles s).cancelled = false) :
    (∀ k, (srv.broadcast stateKey version ops exclude).fanout.streamsOf k s =
      srv.fanout.streamsOf k s) ∧ (srv.broadcast stateKey version ops exclude).handles s =
      (srv.handles s).push (if exclude = some s then []
        else (srv.fanout.streamsOf stateKey s).map fun sid => .delta sid 0 version ops) :=
  FanoutBus.broadcastEncoded_of_open hopen

theorem send_of_open {sessionId : String} {msg : OutboundMsg}
    (hopen : ((srv.send sessionId msg).handles s).cancelled = false) :
    (srv.send sessionId msg).handles s =
      (srv.handles s).push (if s = sessionId then [msg] else []) := by
  split_ifs with hs
  · subst hs
    rw [send, Handles.send_of_open hopen]
    exact Function.update_self ..
  · rw [WriteHandle.push_nil]
    exact Handles.send_of_ne _ hs _

def reached (srv : SodpServer) (session : Session) (stateKey s : String) : List ℕ :=
  if s = session.id then (session.watchStreamId stateKey).toList
  else srv.fanout.streamsOf stateKey s

theorem publish_sublist (srv : SodpServer) (session : Session) (stateKey : String) (version : ℕ)
    (ops : List DeltaOp) (s : String) :
    (∀ k, ((srv.publish session stateKey version ops).fanout.streamsOf k s).Sublist
      (srv.fanout.streamsOf k s)) ∧
    ∃ sent, sent.Sublist ((srv.reached session stateKey s).map fun sid =>
      .delta sid 0 version ops) ∧
      ((srv.publish session stateKey version ops).handles s).queue =
        (srv.handles s).queue ++ sent := by
  obtain ⟨hstreams, sent, hsub, hqueue⟩ :=
    broadcast_sublist srv stateKey version ops (some session.id) s
  rw [publish, reached]
  cases hid : session.watchStreamId stateKey with
  | none =>
    refine ⟨hstreams, sent, ?_, hqueue⟩
    by_cases hs : s = session.id
    · rw [if_pos (congrArg some hs.symm)] at hsub
      rw [if_pos hs]
      exact hsub
    · rw [if_neg fun h => hs (some.inj h).symm] at hsub
      rw [if_neg hs]
      exact hsub
  | some =>
    refine ⟨hstreams, ?_⟩
    by_cases hs : s = session.id
    · rw [if_pos (congrArg some hs.symm), sublist_nil] at hsub
      rw [hsub, append_nil] at hqueue
      subst hs
      simp only [send, Handles.send_self, WriteHandle.queue_send, hqueue, if_true]
      split_ifs
      · exact ⟨_, List.Sublist.refl _, rfl⟩
      · exact ⟨[], nil_sublist _, rfl⟩
    · rw [if_neg fun h => hs (some.inj h).symm] at hsub
      simp only [send, Handles.send_of_ne _ hs, hs, if_false]
      exact ⟨sent, hsub, hqueue⟩

@[simp] theorem state_publish (srv : SodpServer) (session : Session) (stateKey : String)
    (version : ℕ) (ops : List DeltaOp) :
    (srv.publish session stateKey version ops).state = srv.state := by
  rw [publish]
  cases session.watchStreamId stateKey <;> rfl

theorem publish_cancelled (hc : (srv.handles s).cancelled = true) :
    ((srv.publish session stateKey version ops).handles s).cancelled = true := by
  rw [publish]
  cases session.watchStreamId stateKey with
  | none => exact broadcast_cancelled hc _
  | some => exact send_cancelled (broadcast_cancelled hc _) _ _

theorem publish_of_open
    (hopen : ((srv.publish session stateKey version ops).handles s).cancelled = false) :
    (∀ k, (srv.publish session stateKey version ops).fanout.streamsOf k s =
      srv.fanout.streamsOf k s) ∧ (srv.publish session stateKey version ops).handles s =
      (srv.handles s).push ((srv.reached session stateKey s).map fun sid =>
        .delta sid 0 version ops) := by
  have hfirst : ((srv.broadcast stateKey version ops (some session.id)).handles s).cancelled =
      false := by
    by_contra hc
    rw [publish] at hopen
    cases hid : session.watchStreamId stateKey with
    | none =>
      simp only [hid] at hopen
      exact hc hopen
    | some =>
      simp only [hid] at hopen
      rw [send_cancelled (by simpa using hc)] at hopen
      cases hopen
  obtain ⟨hstreams, hqueue⟩ := broadcast_of_open hfirst
  rw [publish] at hopen ⊢
  rw [reached]
  cases hid : session.watchStreamId stateKey with
  | none =>
    refine ⟨hstreams, hqueue.trans (congrArg _ ?_)⟩
    by_cases hs : s = session.id
    · rw [if_pos (congrArg some hs.symm), if_pos hs]
      rfl
    · rw [if_neg fun h => hs (some.inj h).symm, if_neg hs]
  | some =>
    simp only [hid] at hopen
    refine ⟨hstreams, ?_⟩
    rw [send_of_open hopen, hqueue, WriteHandle.push_push]
    congr 1
    by_cases hs : s = session.id
    · rw [if_pos (congrArg some hs.symm), if_pos hs, if_pos hs]
      rfl
    · rw [if_neg fun h => hs (some.inj h).symm, if_neg hs, if_neg hs, append_nil]

/-! ### Calls -/

section Calls
variable {call : StateStore.Call}

theorem commit_eq (srv : SodpServer) (session : Session) (call : StateStore.Call) :
    (srv.commit session call).1 =
      if srv.state.opsOf call = [] then { srv with state := (srv.state.exec call).1 }
      else publish { srv with state := (srv.state.exec call).1 } session call.key
        (srv.state.globalVersion + 1) (srv.state.opsOf call) := by
  rw [commit]
  cases hresult : (srv.state.exec call).2 with
  | none =>
    rw [if_pos]
    rw [StateStore.opsOf, hresult]
    rfl
  | some r =>
    obtain ⟨_, _⟩ := r
    rw [opsOf_of_result hresult, version_exec hresult]
    simp only [List.isEmpty_iff]

theorem state_commit (srv : SodpServer) (session : Session) (call : StateStore.Call) :
    (srv.commit session call).1.state = (srv.state.exec call).1 := by
  rw [commit_eq]
  split_ifs
  · rfl
  · rw [state_publish]

theorem commit_cancelled (hc : (srv.handles s).cancelled = true) :
    ((srv.commit session call).1.handles s).cancelled = true := by
  rw [commit_eq]
  split_ifs
  · exact hc
  · exact publish_cancelled hc

theorem streamsOf_commit_sublist (srv : SodpServer) (session : Session) (call : StateStore.Call)
    (k s : String) : ((srv.commit session call).1.fanout.streamsOf k s).Sublist
      (srv.fanout.streamsOf k s) := by
  rw [commit_eq]
  split_ifs
  · exact List.Sublist.refl _
  · exact (publish_sublist _ session call.key _ _ s).1 k

theorem commit_sublist (srv : SodpServer) (session : Session) (call : StateStore.Call)
    (s : String) : ∃ sent, sent.Sublist (if srv.state.opsOf call = [] then []
        else (srv.reached session call.key s).map fun sid =>
          OutboundMsg.delta sid 0 (srv.state.globalVersion + 1) (srv.state.opsOf call)) ∧
      ((srv.commit session call).1.handles s).queue = (srv.handles s).queue ++ sent := by
  rw [commit_eq]
  split_ifs
  · exact ⟨[], List.Sublist.refl _, (append_nil _).symm⟩
  · exact (publish_sublist { srv with state := (srv.state.exec call).1 } session call.key _ _ s).2

theorem commit_of_open (hopen : ((srv.commit session call).1.handles s).cancelled = false) :
    (∀ k, (srv.commit session call).1.fanout.streamsOf k s = srv.fanout.streamsOf k s) ∧
    (srv.commit session call).1.handles s =
      (srv.handles s).push (if srv.state.opsOf call = [] then []
        else (srv.reached session call.key s).map fun sid =>
          .delta sid 0 (srv.state.globalVersion + 1) (srv.state.opsOf call)) := by
  rw [commit_eq] at hopen ⊢
  split_ifs at hopen ⊢
  · exact ⟨fun _ => rfl, (WriteHandle.push_nil _).symm⟩
  · exact publish_of_open hopen

end Calls

/-! ### Presence cleanup -/

section Cleanup
variable {entry : PresenceEntry} {e : StateEntry}

def cleanupCall (entry : PresenceEntry) (e : StateEntry) : StateStore.Call :=
  .apply entry.stateKey (jsonRemoveIn e.value entry.path)

theorem cleanup_eq (he : srv.state.get entry.stateKey = some e) : srv.cleanup entry =
      if srv.state.opsOf (cleanupCall entry e) = [] then
        { srv with state := (srv.state.exec (cleanupCall entry e)).1 }
      else broadcast { srv with state := (srv.state.exec (cleanupCall entry e)).1 } entry.stateKey
        (srv.state.globalVersion + 1) (srv.state.opsOf (cleanupCall entry e)) none := by
  rw [cleanup, he]
  simp only [List.isEmpty_iff]
  rfl

theorem state_cleanup (he : srv.state.get entry.stateKey = some e) :
    (srv.cleanup entry).state = (srv.state.exec (cleanupCall entry e)).1 := by
  rw [cleanup_eq he]
  split_ifs <;> rfl

theorem cleanup_cancelled (hc : (srv.handles s).cancelled = true) :
    ((srv.cleanup entry).handles s).cancelled = true := by
  cases he : srv.state.get entry.stateKey with
  | none => rwa [cleanup, he]
  | some =>
    rw [cleanup_eq he]
    split_ifs
    · exact hc
    · exact broadcast_cancelled hc _

theorem streamsOf_cleanup_sublist (srv : SodpServer) (entry : PresenceEntry) (k s : String) :
    ((srv.cleanup entry).fanout.streamsOf k s).Sublist (srv.fanout.streamsOf k s) := by
  cases he : srv.state.get entry.stateKey with
  | none => rw [cleanup, he]
  | some =>
    rw [cleanup_eq he]
    split_ifs
    · exact List.Sublist.refl _
    · exact (broadcast_sublist _ entry.stateKey _ _ none s).1 k

theorem cleanup_sublist (he : srv.state.get entry.stateKey = some e) (s : String) :
    ∃ sent, sent.Sublist (if srv.state.opsOf (cleanupCall entry e) = [] then []
        else (srv.fanout.streamsOf entry.stateKey s).map fun sid => OutboundMsg.delta sid 0
          (srv.state.globalVersion + 1) (srv.state.opsOf (cleanupCall entry e))) ∧
      ((srv.cleanup entry).handles s).queue = (srv.handles s).queue ++ sent := by
  rw [cleanup_eq he]
  split_ifs
  · exact ⟨[], List.Sublist.refl _, (append_nil _).symm⟩
  · exact (broadcast_sublist { srv with state := (srv.state.exec (cleanupCall entry e)).1 }
      entry.stateKey _ _ none s).2

theorem cleanup_of_open (he : srv.state.get entry.stateKey = some e)
    (hopen : ((srv.cleanup entry).handles s).cancelled = false) :
    (∀ k, (srv.cleanup entry).fanout.streamsOf k s = srv.fanout.streamsOf k s) ∧
    (srv.cleanup entry).handles s =
      (srv.handles s).push (if srv.state.opsOf (cleanupCall entry e) = [] then []
        else (srv.fanout.streamsOf entry.stateKey s).map fun sid =>
          .delta sid 0 (srv.state.globalVersion + 1) (srv.state.opsOf (cleanupCall entry e))) := by
  rw [cleanup_eq he] at hopen ⊢
  split_ifs at hopen ⊢
  · exact ⟨fun _ => rfl, (WriteHandle.push_nil _).symm⟩
  · exact broadcast_of_open hopen

end Cleanup

/-! ### Replies -/

theorem sameTable_reply (srv : SodpServer) (session : Session) (msg : ℕ → OutboundMsg) :
    session.SameTable (srv.reply session msg).2 := session.sameTable_nextSeq

theorem reply_cancelled (hc : (srv.handles s).cancelled = true) (msg : ℕ → OutboundMsg) :
    ((srv.reply session msg).1.handles s).cancelled = true := send_cancelled hc _ _

theorem reply_of_open {msg : ℕ → OutboundMsg}
    (hopen : ((srv.reply session msg).1.handles s).cancelled = false) :
    (srv.reply session msg).1.handles s =
      (srv.handles s).push (if s = session.id then [msg session.nextSeq.2] else []) :=
  send_of_open hopen

theorem sendStateInit_of_open {streamId : ℕ} {params : Option Value} {entry : ℕ × Value × Bool}
    (hopen : ((srv.sendStateInit session streamId stateKey params entry).1.handles s).cancelled =
      false) : (srv.sendStateInit session streamId stateKey params entry).1.handles s =
      (srv.handles s).push (if s = session.id then [.stateInit streamId session.nextSeq.2 stateKey
        entry.1 entry.2.1 entry.2.2 params] else []) :=
  reply_of_open hopen

section Replay
variable {streamId : ℕ} {ds : List (ℕ × List DeltaOp)}

def replayAll (streamId : ℕ) (acc : SodpServer × Session) (ds : List (ℕ × List DeltaOp)) :
    SodpServer × Session :=
  ds.foldl (fun acc d => acc.1.reply acc.2 fun seq => .delta streamId seq d.1 d.2) acc

theorem replayAll_cancelled {acc : SodpServer × Session} (hc : (acc.1.handles s).cancelled = true) :
    ((replayAll streamId acc ds).1.handles s).cancelled = true := by
  induction ds generalizing acc with
  | nil => exact hc
  | cons d ds ih => exact ih (reply_cancelled hc _)

theorem replayAll_frame (streamId : ℕ) (acc : SodpServer × Session) (ds : List (ℕ × List DeltaOp)) :
    (replayAll streamId acc ds).1.state = acc.1.state ∧
    (replayAll streamId acc ds).1.fanout = acc.1.fanout ∧
    acc.2.SameTable (replayAll streamId acc ds).2 := by
  induction ds generalizing acc with
  | nil => exact ⟨rfl, rfl, .refl _⟩
  | cons d ds ih =>
    obtain ⟨hstate, hfanout, hsession⟩ :=
      ih (acc.1.reply acc.2 fun seq => .delta streamId seq d.1 d.2)
    exact ⟨hstate, hfanout, (sameTable_reply ..).trans hsession⟩

theorem replayAll_of_open {acc : SodpServer × Session}
    (hopen : ((replayAll streamId acc ds).1.handles s).cancelled = false) :
    ∃ msgs, (∀ m ∈ msgs, ∃ seq v ops, m = OutboundMsg.delta streamId seq v ops) ∧
      (replayAll streamId acc ds).1.handles s =
        (acc.1.handles s).push (if s = acc.2.id then msgs else []) := by
  induction ds generalizing acc with
  | nil => exact ⟨[], by simp, by simp [replayAll]⟩
  | cons d ds ih =>
    have hfirst : ((acc.1.reply acc.2 fun seq => .delta streamId seq d.1 d.2).1.handles
        s).cancelled = false := by
      by_contra hc
      rw [replayAll, foldl_cons, ← replayAll, replayAll_cancelled (by simpa using hc)] at hopen
      cases hopen
    obtain ⟨msgs, hmsgs, hqueue⟩ := ih hopen
    refine ⟨.delta streamId acc.2.nextSeq.2 d.1 d.2 :: msgs, ?_, ?_⟩
    · intro m hm
      rcases mem_cons.mp hm with rfl | hm
      · exact ⟨_, _, _, rfl⟩
      · exact hmsgs m hm
    · rw [replayAll, foldl_cons, ← replayAll, hqueue, reply_of_open hfirst,
        WriteHandle.push_push, (sameTable_reply acc.1 acc.2 _).id]
      split_ifs <;> rfl

end Replay

theorem replayMissed_eq (srv : SodpServer) (session : Session) (streamId : ℕ) (stateKey : String)
    (sinceVersion : ℕ) :
    srv.replayMissed session streamId stateKey sinceVersion = replayAll streamId (srv, session)
      (if 0 < sinceVersion then srv.state.deltasSince stateKey sinceVersion else []) := by
  rw [replayMissed]
  split_ifs <;> rfl

/-! ### A new stream -/

theorem readEntry_value (srv : SodpServer) (stateKey : String) :
    (srv.readEntry stateKey).2.1 = srv.state.valueOf stateKey := by
  rw [readEntry, StateStore.valueOf]
  cases srv.state.get stateKey <;> rfl

theorem subscribeKey_eq (srv : SodpServer) (session : Session) (stateKey : String)
    (params : Option Value) :
    srv.subscribeKey session stateKey params = srv.resumeKey session stateKey 0 params := rfl

section Resume
variable {sinceVersion : ℕ} {params : Option Value}

def missedBy (srv : SodpServer) (stateKey : String) (sinceVersion : ℕ) : List (ℕ × List DeltaOp) :=
  if 0 < sinceVersion then srv.state.deltasSince stateKey sinceVersion else []

theorem readEntry_of_state {srv srv' : SodpServer} (h : srv'.state = srv.state)
    (stateKey : String) :
    srv'.readEntry stateKey = srv.readEntry stateKey := by
  rw [readEntry, readEntry, h]

theorem resumeKey_eq (srv : SodpServer) (session : Session) (stateKey : String) (sinceVersion : ℕ)
    (params : Option Value) : srv.resumeKey session stateKey sinceVersion params =
      let replayed := replayAll session.nextStreamId (srv.openStream session stateKey params)
        (srv.missedBy stateKey sinceVersion)
      replayed.1.sendStateInit replayed.2 session.nextStreamId stateKey params
        (srv.readEntry stateKey) := by
  obtain ⟨hstate, -⟩ := replayAll_frame session.nextStreamId
    (srv.openStream session stateKey params) (srv.missedBy stateKey sinceVersion)
  rw [resumeKey, replayMissed_eq]
  congr 1
  exact readEntry_of_state hstate stateKey

theorem resumeKey_frame (srv : SodpServer) (session : Session) (stateKey : String)
    (sinceVersion : ℕ) (params : Option Value) :
    (srv.resumeKey session stateKey sinceVersion params).1.state = srv.state ∧
    (srv.resumeKey session stateKey sinceVersion params).1.fanout =
      srv.fanout.subscribe stateKey ⟨session.id, session.nextStreamId⟩ ∧
    (session.allocateStream.1.addWatch session.nextStreamId stateKey params).SameTable
      (srv.resumeKey session stateKey sinceVersion params).2 := by
  obtain ⟨hstate, hfanout, htable⟩ := replayAll_frame session.nextStreamId
    (srv.openStream session stateKey params) (srv.missedBy stateKey sinceVersion)
  rw [resumeKey_eq]
  exact ⟨hstate, hfanout, htable.trans (sameTable_reply ..)⟩

theorem resumeKey_cancelled (hc : (srv.handles s).cancelled = true) :
    ((srv.resumeKey session stateKey sinceVersion params).1.handles s).cancelled = true := by
  rw [resumeKey_eq]
  exact reply_cancelled (replayAll_cancelled hc) _

theorem resumeKey_of_open
    (hopen : ((srv.resumeKey session stateKey sinceVersion params).1.handles s).cancelled = false) :
    ∃ msgs seq, (∀ m ∈ msgs, ∃ seq v ops, m = OutboundMsg.delta session.nextStreamId seq v ops) ∧
      (srv.resumeKey session stateKey sinceVersion params).1.handles s =
        (srv.handles s).push (if s = session.id then msgs ++
          [.stateInit session.nextStreamId seq stateKey (srv.readEntry stateKey).1
            (srv.readEntry stateKey).2.1 (srv.readEntry stateKey).2.2 params] else []) := by
  rw [resumeKey_eq] at hopen ⊢
  obtain ⟨-, -, htable⟩ := replayAll_frame session.nextStreamId
    (srv.openStream session stateKey params) (srv.missedBy stateKey sinceVersion)
  have hreplayed : ((replayAll session.nextStreamId (srv.openStream session stateKey params)
      (srv.missedBy stateKey sinceVersion)).1.handles s).cancelled = false := by
    by_contra hc
    rw [sendStateInit, reply_cancelled (by simpa using hc)] at hopen
    cases hopen
  obtain ⟨msgs, hmsgs, hqueue⟩ := replayAll_of_open hreplayed
  generalize replayAll session.nextStreamId (srv.openStream session stateKey params)
    (srv.missedBy stateKey sinceVersion) = replayed at hopen htable hqueue ⊢
  have hid : replayed.2.id = session.id := htable.id
  refine ⟨msgs, replayed.2.nextSeq.2, hmsgs, ?_⟩
  rw [sendStateInit_of_open hopen, hqueue, hid, WriteHandle.push_push]
  change (srv.handles s).push ((if s = session.id then msgs else []) ++ _) = _
  split_ifs <;> rfl

end Resume

end Sodp.SodpServer
