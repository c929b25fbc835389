import Sodp.Publish
import Sodp.Replay
import Sodp.Replica

/-!
# A session and its client

The relation between a session and the client at its other end, while no handler is under way. The
registry has exactly the streams of the watch table, each key has one stream, and each stream
belongs to one key for the whole connection. For every watched key the client, once it has processed
its queue, shows the value of the store.
-/

namespace Sodp
open Client StateStore Function OrderedMap List SodpServer SodpClient

structure Linked (σ : ℕ → String) (srv : SodpServer) (session : Session) (client : SodpClient) :
    Prop where
  single : session.OneStreamPerKey
  streams : ∀ k, srv.fanout.streamsOf k session.id = (session.watchStreamId k).toList
  watched : ∀ streamId k, session.Watches streamId k →
    streamId < session.nextStreamId ∧ σ streamId = k ∧ k ≠ ""
  bound : client.BoundBy σ session.nextStreamId
  named : ∀ m ∈ (srv.handles session.id).queue, SodpClient.NamedBy σ session.nextStreamId m
  shows : ∀ streamId k, session.Watches streamId k →
    (client.handleFrames (srv.handles session.id).queue).Shows streamId k
      (.ofJson (srv.state.valueOf k))

def StoreKeys (P : String → Prop) (s : StateStore) : Prop := ∀ k, (s.valueOf k).AllKeys P

abbrev PlainStore : StateStore → Prop := StoreKeys PlainKey

theorem storeKeys_iff (P : String → Prop) (s : StateStore) :
    StoreKeys P s ↔ ∀ e ∈ s.entries.toList, e.2.value.AllKeys P := by
  constructor
  · rintro h ⟨k, e⟩ he
    have hk := h k
    rw [valueOf, StateStore.get, (mem_toList _ k e).mp he] at hk
    exact hk
  · intro h k
    rw [valueOf, StateStore.get]
    cases he : s.entries.get? k with
    | none => trivial
    | some e => exact h (k, e) ((mem_toList _ k e).mpr he)

instance (P : String → Prop) [DecidablePred P] : DecidablePred (StoreKeys P) := fun s =>
  decidable_of_iff _ (storeKeys_iff P s).symm

def Silent : OutboundMsg → Prop
  | .stateInit .. => False
  | .delta .. => False
  | _ => True

theorem Silent.handleFrame {m : OutboundMsg} (h : Silent m) (c : SodpClient) :
    c.handleFrame m = c := by
  cases m with
  | stateInit | delta => exact absurd h id
  | _ => rfl

theorem Silent.namedBy {m : OutboundMsg} (h : Silent m) (σ : ℕ → String) (n : ℕ) :
    SodpClient.NamedBy σ n m := by
  cases m with
  | stateInit => exact absurd h id
  | _ => trivial

variable {msgs : List OutboundMsg}

theorem handleFrames_silent (h : ∀ m ∈ msgs, Silent m)
    (c : SodpClient) : c.handleFrames msgs = c := by
  induction msgs with
  | nil => rfl
  | cons m msgs ih =>
    rw [SodpClient.handleFrames, foldl_cons, (h m mem_cons_self).handleFrame]
    exact ih fun m' hm' => h m' (mem_cons_of_mem m hm')

namespace Linked

variable {σ : ℕ → String} {srv srv' : SodpServer} {session session' : Session}
  {client client' : SodpClient} {key : String}

theorem bound_settled (h : Linked σ srv session client) :
    (client.handleFrames (srv.handles session.id).queue).BoundBy σ session.nextStreamId :=
  h.bound.handleFrames h.named

theorem unbound_settled (h : Linked σ srv session client) :
    (client.handleFrames (srv.handles session.id).queue).streamToKey.get? session.nextStreamId =
      none := by
  cases hk : (client.handleFrames (srv.handles session.id).queue).streamToKey.get?
      session.nextStreamId with
  | none => rfl
  | some k => exact absurd (h.bound_settled _ k hk).1 (lt_irrefl _)

theorem isSome_valueAt (h : Linked σ srv session client) {streamId : ℕ}
    (hw : session.Watches streamId key) : (client.valueAt key).isSome := by
  rw [← client.isSome_valueAt_handleFrames (srv.handles session.id).queue,
    (shows_iff.mp (h.shows streamId key hw)).2]
  rfl

theorem fresh (hwatches : session.watches = .empty) (hqueue : (srv.handles session.id).queue = [])
    (hstreams : ∀ k, srv.fanout.streamsOf k session.id = [])
    (hunbound : ∀ streamId, client.streamToKey.get? streamId = none) :
    Linked σ srv session client := by
  have hempty : ∀ streamId k, ¬ session.Watches streamId k := fun streamId k =>
    (session.watchStreamId_eq_none_iff k).mp (Session.watchStreamId_of_empty hwatches k) streamId
  refine ⟨fun a b k ha => absurd ha (hempty a k), fun k => ?_, fun a k ha => absurd ha (hempty a k),
    fun a k ha => ?_, ?_, fun a k ha => absurd ha (hempty a k)⟩
  · rw [hstreams, Session.watchStreamId_of_empty hwatches]
    rfl
  · rw [hunbound] at ha
    cases ha
  · rw [hqueue]
    simp

section
variable (h : Linked σ srv session client)
include h

theorem of_sameTable (htable : session.SameTable session') :
    Linked σ srv session' client := by
  refine ⟨h.single.of_sameTable htable, fun k => ?_, fun a k ha => ?_, ?_, ?_, fun a k ha => ?_⟩
  · rw [htable.id, h.streams, htable.watchStreamId]
  · rw [htable.nextStreamId]
    exact h.watched a k ((htable.watches_iff a k).mp ha)
  · rw [htable.nextStreamId]
    exact h.bound
  · rw [htable.nextStreamId, htable.id]
    exact h.named
  · rw [htable.id]
    exact h.shows a k ((htable.watches_iff a k).mp ha)

theorem silent
    (hstreams : ∀ k, srv'.fanout.streamsOf k session.id = srv.fanout.streamsOf k session.id)
    {m : List OutboundMsg} (hm : ∀ msg ∈ m, Silent msg)
    (hqueue : (srv'.handles session.id).queue = (srv.handles session.id).queue ++ m)
    (hvalue : ∀ k, srv'.state.valueOf k = srv.state.valueOf k) : Linked σ srv' session client := by
  refine ⟨h.single, fun k => (hstreams k).trans (h.streams k), h.watched, h.bound,
    fun msg hmsg => ?_, fun a k ha => ?_⟩
  · rw [hqueue] at hmsg
    rcases mem_append.mp hmsg with hmsg | hmsg
    · exact h.named msg hmsg
    · exact (hm msg hmsg).namedBy _ _
  · rw [hqueue, handleFrames_append, handleFrames_silent hm, hvalue]
    exact h.shows a k ha

theorem reply {msg : ℕ → OutboundMsg} (hmsg : Silent (msg session.nextSeq.2))
    (hopen : ((srv.reply session msg).1.handles session.id).cancelled = false) :
    Linked σ (srv.reply session msg).1 (srv.reply session msg).2 client := by
  have hlinked : Linked σ (srv.reply session msg).1 session client := by
    refine h.silent (m := [msg session.nextSeq.2]) (fun _ => rfl) (by simpa using hmsg) ?_
      (fun _ => rfl)
    rw [reply_of_open hopen, if_pos rfl, WriteHandle.queue_push]
  exact hlinked.of_sameTable (sameTable_reply ..)

theorem mutate {version : ℕ} {ops : List DeltaOp}
    (hstreams : ∀ k, srv'.fanout.streamsOf k session.id = srv.fanout.streamsOf k session.id)
    (hqueue : (srv'.handles session.id).queue = (srv.handles session.id).queue ++
      (session.watchStreamId key).toList.map fun sid => .delta sid 0 version ops)
    (hothers : ∀ k, k ≠ key → srv'.state.valueOf k = srv.state.valueOf k)
    (hops : applyOps (.ofJson (srv.state.valueOf key)) ops =
      .ok (.ofJson (srv'.state.valueOf key))) : Linked σ srv' session client := by
  refine ⟨h.single, fun k => (hstreams k).trans (h.streams k), h.watched, h.bound, ?_, ?_⟩
  · intro m hm
    rw [hqueue, mem_append, mem_map] at hm
    rcases hm with hm | ⟨sid, -, rfl⟩
    · exact h.named m hm
    · trivial
  · intro a k ha
    have hshows := h.shows a k ha
    rw [hqueue, handleFrames_append]
    cases hid : session.watchStreamId key with
    | none =>
      have hk : k ≠ key := by
        intro hk
        subst hk
        exact (session.watchStreamId_eq_none_iff k).mp hid a ha
      rw [hothers k hk]
      exact hshows
    | some sid =>
      have hwatch := Session.watches_of_watchStreamId hid
      by_cases hk : k = key
      · subst hk
        rw [h.single sid a k hwatch ha]
        exact hshows.delta (h.watched a k ha).2.2 hops 0 version
      · rw [hothers k hk]
        exact hshows.delta_of_ne (h.shows sid key hwatch).1 hk 0 version ops

theorem exec {call : Call} (hplain : PlainStore srv.state) (hplain' : PlainStore srv'.state)
    (hstate : srv'.state = (srv.state.exec call).1)
    (hstreams : ∀ k, srv'.fanout.streamsOf k session.id = srv.fanout.streamsOf k session.id)
    (hqueue : (srv'.handles session.id).queue = (srv.handles session.id).queue ++
      if srv.state.opsOf call = [] then [] else
        (session.watchStreamId call.key).toList.map fun sid =>
          .delta sid 0 (srv.state.globalVersion + 1) (srv.state.opsOf call)) :
    Linked σ srv' session client := by
  split_ifs at hqueue with hops
  · refine h.silent hstreams (by simp) hqueue fun k => ?_
    rw [valueOf, hstate, content_exec_of_opsOf hops, valueOf]
  · have hcontent := content_exec srv.state call
    rw [← hstate] at hcontent
    refine h.mutate hstreams hqueue (fun k hk => ?_) ?_
    · rw [valueOf, hcontent, if_neg hk, valueOf]
    · have hvalue : srv'.state.valueOf call.key = call.value.getD .null := by
        rw [valueOf, hcontent, if_pos rfl]
      have hold := hplain call.key
      have hnew := hplain' call.key
      rw [hvalue] at hnew
      rw [valueOf] at hold
      rw [hvalue, valueOf, opsOf_eq_stepOps]
      refine applyOps_stepOps fun old new ho hn => addressable_of_plainKeys ?_ ?_
      · rwa [ho] at hold
      · rwa [hn] at hnew

theorem commit {caller : Session} {call : Call}
    (hplain : PlainStore srv.state) (hplain' : PlainStore (srv.state.exec call).1)
    (hreached : srv.reached caller call.key session.id = (session.watchStreamId call.key).toList)
    (hopen : ((srv.commit caller call).1.handles session.id).cancelled = false) :
    Linked σ (srv.commit caller call).1 session client := by
  obtain ⟨hstreams, hhandle⟩ := commit_of_open hopen
  have hstate := srv.state_commit caller call
  refine h.exec hplain (hstate ▸ hplain') hstate hstreams ?_
  rw [hhandle, WriteHandle.queue_push, hreached]

variable {params : Option Value}

theorem subscribed {seq : ℕ} (hnone : session.watchStreamId key = none) (hkey : key ≠ "")
    (hentry : (client.valueAt key).isSome) (hstate : srv'.state = srv.state)
    (hfanout : srv'.fanout = srv.fanout.subscribe key ⟨session.id, session.nextStreamId⟩)
    (hmsgs : ∀ m ∈ msgs, ∃ seq v ops, m = .delta session.nextStreamId seq v ops)
    (hqueue : (srv'.handles session.id).queue = (srv.handles session.id).queue ++ (msgs ++
      [.stateInit session.nextStreamId seq key (srv.readEntry key).1 (srv.readEntry key).2.1
        (srv.readEntry key).2.2 params])) : Linked (update σ session.nextStreamId key) srv'
      (session.allocateStream.1.addWatch session.nextStreamId key params) client := by
  have hfree : ∀ k, ¬ session.Watches session.nextStreamId k := fun k hk =>
    lt_irrefl _ (h.watched _ k hk).1
  have hupdate : ∀ {a : ℕ} {k : String}, a < session.nextStreamId ∧ σ a = k →
      a < session.nextStreamId + 1 ∧ update σ session.nextStreamId key a = k := by
    intro a k ha
    exact ⟨ha.1.trans (Nat.lt_succ_self _), (update_of_ne (ne_of_lt ha.1) _ _).trans ha.2⟩
  refine ⟨h.single.addWatch hnone _ params, fun k => ?_, fun a k ha => ?_, fun a k ha => ?_,
    fun m hm => ?_, fun a k ha => ?_⟩
  · have hid := h.single.watchStreamId_addWatch hnone hfree params k
    rw [hfanout, FanoutBus.streamsOf_subscribe]
    change _ ++ _ = ((session.addWatch session.nextStreamId key params).watchStreamId k).toList
    rw [hid]
    change srv.fanout.streamsOf k session.id ++ _ = _
    rw [h.streams]
    split_ifs with hc hk hk
    · rw [hk, hnone]
      rfl
    · exact absurd hc.1 hk
    · exact absurd ⟨hk, rfl⟩ hc
    · exact append_nil _
  · rcases (Session.watches_addWatch ..).mp ha with ha'
    split_ifs at ha' with hna
    · rw [hna, ha']
      exact ⟨Nat.lt_succ_self _, update_self .., hkey⟩
    · obtain ⟨hlt, hname, hne⟩ := h.watched a k ha'
      obtain ⟨hlt', hname'⟩ := hupdate ⟨hlt, hname⟩
      exact ⟨hlt', hname', hne⟩
  · exact hupdate (h.bound a k ha)
  · change m ∈ (srv'.handles session.id).queue at hm
    rw [hqueue, mem_append, mem_append] at hm
    rcases hm with hm | hm | hm
    · cases m with
      | stateInit => exact hupdate (h.named _ hm)
      | _ => trivial
    · obtain ⟨_, _, _, rfl⟩ := hmsgs m hm
      trivial
    · rw [mem_singleton.mp hm]
      exact ⟨Nat.lt_succ_self _, update_self ..⟩
  · change (client.handleFrames (srv'.handles session.id).queue).Shows a k _
    rw [hqueue, handleFrames_append, handleFrames_append,
      handleFrames_delta_of_unbound h.unbound_settled hmsgs, hstate]
    rcases (Session.watches_addWatch ..).mp ha with ha'
    split_ifs at ha' with hna
    · rw [hna, ha', ← readEntry_value]
      refine shows_stateInit ?_ _ seq _ _ _ params
      have hsome := (client.isSome_valueAt_handleFrames
        (srv.handles session.id).queue key).trans hentry
      rwa [SodpClient.valueAt, Option.isSome_map] at hsome
    · have hk : k ≠ key := by
        intro hk
        exact (session.watchStreamId_eq_none_iff key).mp hnone a (hk ▸ ha')
      exact (h.shows a k ha').stateInit_of_ne hna hk seq _ _ _ params

theorem resumeKey {sinceVersion : ℕ} (hnone : session.watchStreamId key = none) (hkey : key ≠ "")
    (hentry : (client.valueAt key).isSome)
    (hopen : ((srv.resumeKey session key sinceVersion params).1.handles session.id).cancelled =
      false) : Linked (update σ session.nextStreamId key)
      (srv.resumeKey session key sinceVersion params).1
      (srv.resumeKey session key sinceVersion params).2 client := by
  obtain ⟨hstate, hfanout, htable⟩ := srv.resumeKey_frame session key sinceVersion params
  obtain ⟨_, _, hmsgs, hhandle⟩ := resumeKey_of_open hopen
  rw [if_pos rfl] at hhandle
  exact (h.subscribed hnone hkey hentry hstate hfanout hmsgs
    (congrArg WriteHandle.queue hhandle)).of_sameTable htable

theorem unwatchKey (key : String) :
    Linked σ (SodpServer.unwatchKey (srv, session) key).1
      (SodpServer.unwatchKey (srv, session) key).2 client := by
  rw [SodpServer.unwatchKey]
  cases hid : session.watchStreamId key with
  | none => exact h
  | some streamId =>
    have hwatch := Session.watches_of_watchStreamId hid
    have hold : ∀ a k, (session.removeWatch streamId).Watches a k → session.Watches a k :=
      fun a k ha => ((session.watches_removeWatch streamId a k).mp ha).2
    refine ⟨fun a b k ha hb => h.single a b k (hold a k ha) (hold b k hb), fun k => ?_,
      fun a k ha => h.watched a k (hold a k ha), h.bound, h.named,
      fun a k ha => h.shows a k (hold a k ha)⟩
    change (srv.fanout.unsubscribe key session.id).streamsOf k session.id = _
    rw [FanoutBus.streamsOf_unsubscribe, h.streams, h.single.watchStreamId_removeWatch hwatch]
    by_cases hk : k = key <;> simp [hk]

theorem watchStreamId_unwatchKey (key : String) :
    (SodpServer.unwatchKey (srv, session) key).2.watchStreamId key = none := by
  rw [SodpServer.unwatchKey]
  cases hid : session.watchStreamId key with
  | none => exact hid
  | some =>
    refine (h.single.watchStreamId_removeWatch (Session.watches_of_watchStreamId hid) key).trans ?_
    rw [if_pos rfl]

theorem of_client
    (hbound : client'.BoundBy σ session.nextStreamId)
    (hagree : ∀ streamId k, session.Watches streamId k → SodpClient.AgreeOn σ k client client') :
    Linked σ srv session client' where
  single := h.single
  streams := h.streams
  watched := h.watched
  bound := hbound
  named := h.named
  shows streamId k hw :=
    ((hagree streamId k hw).handleFrames h.bound hbound h.named).shows
      (h.watched streamId k hw).2.1 (h.shows streamId k hw)

theorem receive {msg : OutboundMsg} {rest : List OutboundMsg}
    (hqueue : (srv.handles session.id).queue = msg :: rest)
    (hrest : (srv'.handles session.id).queue = rest) (hfanout : srv'.fanout = srv.fanout)
    (hstate : srv'.state = srv.state) : Linked σ srv' session (client.handleFrame msg) := by
  have hnamed := h.named
  rw [hqueue] at hnamed
  refine ⟨h.single, fun k => ?_, h.watched, h.bound.handleFrame (hnamed msg mem_cons_self),
    fun m hm => ?_, fun a k ha => ?_⟩
  · rw [hfanout]
    exact h.streams k
  · rw [hrest] at hm
    exact hnamed m (mem_cons_of_mem msg hm)
  · have hshows := h.shows a k ha
    rw [hqueue] at hshows
    rw [hrest, hstate]
    exact hshows

end

end Linked

end Sodp
