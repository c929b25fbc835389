import Sodp.PendingDeltas
import Sodp.Replica

/-!
# Subscribing while the key changes

A client ignores deltas until STATE_INIT binds the stream, and STATE_INIT carries the entry as it
was read one step earlier. A mutation that is applied after that read and published before
STATE_INIT reaches the client in neither form. Otherwise the value of the client tracks the line of
pending deltas: from STATE_INIT on, the rest of the line takes it to the content of the store.
-/

namespace Sodp.Tasks
open StateStore Client Transition List Option SodpServer SodpClient

variable {ι : Type*}

def settled (client : SodpClient) (c : Tasks ι) (w : ι) : SodpClient :=
  client.handleFrames (c.queue w)

structure Unwatched (client : SodpClient) (w : ι) (key : String) (c : Tasks ι) : Prop where
  streams : c.server.fanout.streamsOf key (c.session w).id = []
  watches : (c.session w).watchStreamId key = none
  unbound : ∀ streamId, (c.session w).nextStreamId ≤ streamId →
    (settled client c w).streamToKey.get? streamId = none
  entry : ((settled client c w).watches.get? key).isSome

structure Opened (client : SodpClient) (w : ι) (key : String) (c : Tasks ι) (streamId : ℕ) :
    Prop where
  streams : c.server.fanout.streamsOf key (c.session w).id = [streamId]
  watches : (c.session w).Watches streamId key
  unbound : (settled client c w).streamToKey.get? streamId = none
  entry : ((settled client c w).watches.get? key).isSome

inductive Stage (client : SodpClient) (w : ι) (key : String) (c : Tasks ι)
    (published : Option Value) (line : List (Pending ι)) : Prop where
  | unwatched (hw : c.handler w = .idle) (h : Unwatched client w key c)
  | replaying (streamId sinceVersion : ℕ) (params : Option Value)
      (hw : c.handler w = .replaying streamId key sinceVersion params)
      (h : Opened client w key c streamId)
  | subscribed (streamId : ℕ) (params : Option Value)
      (hw : c.handler w = .subscribed streamId key params) (h : Opened client w key c streamId)
  | snapshotted (streamId : ℕ) (params : Option Value) (entry : ℕ × Value × Bool) (readAt : ℕ)
      (shown missing : List (Pending ι))
      (hw : c.handler w = .snapshotted streamId key params entry readAt)
      (h : Opened client w key c streamId) (hissued : readAt ≤ c.server.state.globalVersion)
      (hline : line = shown ++ missing)
      (hentry : entry.2.1 = (valuesAlong shown).getLastD (published.getD .null))
      (hmissing : ∀ p ∈ missing, readAt < p.version)
  | live (streamId : ℕ) (value : JsValue) (hw : c.handler w = .idle)
      (hstreams : c.server.fanout.streamsOf key (c.session w).id = [streamId])
      (hwatches : (c.session w).Watches streamId key)
      (hshows : (settled client c w).Shows streamId key value)
      (htracks : Tracks value (published.getD .null) (valuesAlong line))

variable {client : SodpClient} {w : ι} {key : String} {c c' : Tasks ι} {published : Option Value}
  {line : List (Pending ι)}

structure Unaware (w : ι) (c c' : Tasks ι) : Prop where
  handler : c'.handler w = c.handler w
  session : c'.session w = c.session w
  queue : c'.queue w = c.queue w
  streams : ∀ k, c'.server.fanout.streamsOf k (c.session w).id =
    c.server.fanout.streamsOf k (c.session w).id

theorem Unaware.settled (h : Unaware w c c') (client : SodpClient) :
    settled client c' w = settled client c w := by
  rw [Tasks.settled, h.queue, Tasks.settled]

theorem Unwatched.of_unaware (h : Unwatched client w key c) (hsame : Unaware w c c') :
    Unwatched client w key c' where
  streams := by rw [hsame.session, hsame.streams, h.streams]
  watches := by rw [hsame.session, h.watches]
  unbound := by rw [hsame.session, hsame.settled]; exact h.unbound
  entry := by rw [hsame.settled]; exact h.entry

variable {streamId : ℕ} {p : Pending ι}

theorem Opened.of_unaware (h : Opened client w key c streamId) (hsame : Unaware w c c') :
    Opened client w key c' streamId where
  streams := by rw [hsame.session, hsame.streams, h.streams]
  watches := by rw [hsame.session]; exact h.watches
  unbound := by rw [hsame.settled, h.unbound]
  entry := by rw [hsame.settled]; exact h.entry

theorem valuesAlong_append (line extra : List (Pending ι)) :
    valuesAlong (line ++ extra) = valuesAlong line ++ valuesAlong extra := by
  rw [valuesAlong, map_append, valuesOf_append, valuesAlong, valuesAlong]

theorem Stage.extend (h : Stage client w key c published line) (hsame : Unaware w c c')
    (hgrows : c.server.state.globalVersion ≤ c'.server.state.globalVersion)
    {extra : List (Pending ι)} (hextra : ∀ p ∈ extra, c.server.state.globalVersion < p.version) :
    Stage client w key c' published (line ++ extra) := by
  cases h with
  | unwatched hw h => exact .unwatched (hsame.handler.trans hw) (h.of_unaware hsame)
  | replaying sid since params hw h =>
    exact .replaying sid since params (hsame.handler.trans hw) (h.of_unaware hsame)
  | subscribed sid params hw h =>
    exact .subscribed sid params (hsame.handler.trans hw) (h.of_unaware hsame)
  | snapshotted sid params entry readAt shown missing hw h hissued hline hentry hmissing =>
    refine .snapshotted sid params entry readAt shown (missing ++ extra) (hsame.handler.trans hw)
      (h.of_unaware hsame) (hissued.trans hgrows) (by rw [hline, append_assoc]) hentry ?_
    intro p hp
    rcases mem_append.mp hp with hp | hp
    · exact hmissing p hp
    · exact lt_of_le_of_lt hissued (hextra p hp)
  | live sid value hw hstreams hwatches hshows htracks =>
    refine .live sid value (hsame.handler.trans hw) ?_ ?_ ?_ ?_
    · rw [hsame.session, hsame.streams, hstreams]
    · rw [hsame.session]
      exact hwatches
    · rw [hsame.settled]
      exact hshows
    · rw [valuesAlong_append]
      exact htracks.extend _

structure Told (w : ι) (key : String) (p : Pending ι) (c c' : Tasks ι) : Prop where
  handler : c'.handler w = c.handler w
  session : c'.session w = c.session w
  queue : c'.queue w = c.queue w ++ (c.server.fanout.streamsOf key (c.session w).id).map
    fun sid => .delta sid 0 p.version p.ops
  streams : ∀ k, c'.server.fanout.streamsOf k (c.session w).id =
    c.server.fanout.streamsOf k (c.session w).id
  issued : c.server.state.globalVersion ≤ c'.server.state.globalVersion

theorem Told.unaware (h : Told w key p c c')
    (hstreams : c.server.fanout.streamsOf key (c.session w).id = []) : Unaware w c c' where
  handler := h.handler
  session := h.session
  queue := by rw [h.queue, hstreams, map_nil, append_nil]
  streams := h.streams

theorem Told.settled (h : Told w key p c c')
    (hstreams : c.server.fanout.streamsOf key (c.session w).id = [streamId]) : settled client c' w =
      (settled client c w).handleFrame (.delta streamId 0 p.version p.ops) := by
  rw [Tasks.settled, h.queue, hstreams, handleFrames_append, Tasks.settled]
  rfl

theorem Opened.of_told (h : Opened client w key c streamId) (htold : Told w key p c c') :
    Opened client w key c' streamId where
  streams := by rw [htold.session, htold.streams, h.streams]
  watches := by rw [htold.session]; exact h.watches
  unbound := by
    rw [htold.settled h.streams, handleFrame_delta_of_unbound h.unbound, h.unbound]
  entry := by
    rw [htold.settled h.streams, handleFrame_delta_of_unbound h.unbound]
    exact h.entry

theorem Stage.publish {rest : List (Pending ι)} (h : Stage client w key c published (p :: rest))
    (htold : Told w key p c c') (hkey : key ≠ "")
    (hwindow : ∀ readAt ∈ (c.handler w).readAt, p.version ≤ readAt)
    (hpublished : (published.getD .null).AllKeys ReplayKey)
    (hafter : (p.after.getD .null).AllKeys ReplayKey) (hops : p.ops = stepOps published p.after) :
    Stage client w key c' p.after rest := by
  cases h with
  | unwatched hw h =>
    exact .unwatched (htold.handler.trans hw) (h.of_unaware (htold.unaware h.streams))
  | replaying sid since params hw h =>
    exact .replaying sid since params (htold.handler.trans hw) (h.of_told htold)
  | subscribed sid params hw h =>
    exact .subscribed sid params (htold.handler.trans hw) (h.of_told htold)
  | snapshotted sid params entry readAt shown missing hw h hissued hline hentry hmissing =>
    -- the delta is one the snapshot shows, so the snapshot is still ahead of the line
    have hle : p.version ≤ readAt := hwindow readAt (by rw [hw]; rfl)
    cases shown with
    | nil =>
      have hmem : p ∈ missing := by
        rw [nil_append] at hline
        rw [← hline]
        exact mem_cons_self
      exact absurd (hmissing p hmem) (not_lt.mpr hle)
    | cons q shown =>
      rw [cons_append, List.cons.injEq] at hline
      refine .snapshotted sid params entry readAt shown missing (htold.handler.trans hw)
        (h.of_told htold) (hissued.trans htold.issued) hline.2 ?_ hmissing
      rw [hentry, hline.1]
      exact getLastD_cons ..
  | live sid value hw hstreams hwatches hshows htracks =>
    obtain ⟨value', hvalue', hnext⟩ := Tracks.stepOps htracks hpublished hafter
    rw [← hops] at hvalue'
    refine .live sid value' (htold.handler.trans hw) ?_ ?_ ?_ hnext
    · rw [htold.session, htold.streams, hstreams]
    · rw [htold.session]
      exact hwatches
    · rw [htold.settled hstreams]
      exact hshows.delta hkey hvalue' 0 p.version

/-! ### The steps of the watching session -/

section Watcher
variable [DecidableEq ι] {next : SodpServer × Session} {handler : Handler} {streamId : ℕ}
  {params : Option Value}

theorem Line.of_watcher (h : Line key c published line) (hw : (c.handler w).holding = none)
    (hhandler : handler.holding = none) (hstate : next.1.state = c.server.state) :
    Line key (c.moved w next handler) published line := by
  refine h.congr (fun i source k v ops => ?_) hstate
  by_cases hi : i = w
  · subst hi
    rw [moved_handler_self]
    constructor
    · intro hpub
      rw [hpub] at hhandler
      cases hhandler
    · intro hpub
      rw [hpub] at hw
      cases hw
  · rw [moved_handler_of_ne c hi]

theorem moved_queue (c : Tasks ι) (w : ι) (next : SodpServer × Session) (handler : Handler) :
    (c.moved w next handler).queue w = (next.1.handles next.2.id).queue := by
  rw [queue, moved_session_self]
  rfl

theorem Unwatched.openStream (h : Unwatched client w key c) (handler : Handler) :
    Opened client w key (c.moved w (c.server.openStream (c.session w) key params) handler)
      (c.session w).nextStreamId := by
  have hsettled : settled client
      (c.moved w (c.server.openStream (c.session w) key params) handler) w =
        settled client c w := by
    rw [settled, moved_queue, settled]
    rfl
  constructor
  · rw [moved_session_self]
    change (c.server.fanout.subscribe key ⟨(c.session w).id, _⟩).streamsOf key (c.session w).id = _
    rw [FanoutBus.streamsOf_subscribe, h.streams, if_pos ⟨rfl, rfl⟩]
    rfl
  · rw [moved_session_self]
    exact (Session.watches_addWatch ..).mpr (by simp [Session.allocateStream])
  · rw [hsettled]
    exact h.unbound _ (le_refl _)
  · rw [hsettled]
    exact h.entry

section
variable (h : Opened client w key c streamId)
include h

theorem Opened.readEntry (handler : Handler) :
    Opened client w key (c.moved w (c.server, c.session w) handler) streamId := by
  have hsession := moved_same_session c w c.server handler
  have hsettled : settled client (c.moved w (c.server, c.session w) handler) w =
      settled client c w := by
    rw [settled, queue, hsession]
    rfl
  exact ⟨by rw [hsession]; exact h.streams, by rw [hsession]; exact h.watches,
    by rw [hsettled, h.unbound], by rw [hsettled]; exact h.entry⟩

theorem Opened.replayMissed {sinceVersion : ℕ}
    (hopen : (c.moved w (c.server.replayMissed (c.session w) streamId key sinceVersion)
      handler).IsOpen w) :
    Opened client w key (c.moved w (c.server.replayMissed (c.session w) streamId key sinceVersion)
      handler) streamId := by
  rw [replayMissed_eq] at hopen ⊢
  obtain ⟨-, hfanout, hsession⟩ := replayAll_frame streamId (c.server, c.session w)
    (if 0 < sinceVersion then c.server.state.deltasSince key sinceVersion else [])
  rw [IsOpen, moved_session_self, hsession.id] at hopen
  obtain ⟨_, hmsgs, hqueue⟩ := replayAll_of_open hopen
  rw [if_pos rfl] at hqueue
  have hsettled : settled client (c.moved w (SodpServer.replayAll streamId (c.server, c.session w)
      (if 0 < sinceVersion then c.server.state.deltasSince key sinceVersion else [])) handler) w =
        settled client c w := by
    rw [settled, moved_queue, hsession.id, hqueue, WriteHandle.queue_push,
      handleFrames_append]
    exact handleFrames_delta_of_unbound h.unbound hmsgs
  constructor
  · rw [moved_session_self, hsession.id]
    change (SodpServer.replayAll ..).1.fanout.streamsOf key (c.session w).id = _
    rw [hfanout]
    exact h.streams
  · rw [moved_session_self]
    obtain ⟨entry, hentry, hkey⟩ := h.watches
    exact ⟨entry, by rw [hsession.watches]; exact hentry, hkey⟩
  · rw [hsettled, h.unbound]
  · rw [hsettled]
    exact h.entry

theorem Opened.sendStateInit {entry : ℕ × Value × Bool} {shown missing : List (Pending ι)}
    (hentry : entry.2.1 = (valuesAlong shown).getLastD (published.getD .null))
    (hopen : (c.moved w (c.server.sendStateInit (c.session w) streamId key params entry)
      .idle).IsOpen w) : Stage client w key
      (c.moved w (c.server.sendStateInit (c.session w) streamId key params entry) .idle)
      published (shown ++ missing) := by
  have hid : (c.server.sendStateInit (c.session w) streamId key params entry).2.id =
      (c.session w).id := rfl
  rw [IsOpen, moved_session_self, hid] at hopen
  have hqueue := sendStateInit_of_open hopen
  rw [if_pos rfl] at hqueue
  refine .live streamId (.ofJson entry.2.1) (moved_handler_self ..) ?_ ?_ ?_ ?_
  · rw [moved_session_self]
    exact h.streams
  · rw [moved_session_self]
    exact h.watches
  · rw [settled, moved_queue, hid, hqueue, WriteHandle.queue_push, handleFrames_append]
    exact shows_stateInit h.entry streamId (c.session w).nextSeq.2 entry.1 entry.2.1
      entry.2.2 params
  · rw [valuesAlong_append, hentry]
    exact tracks_later _ _ _

end

end Watcher

/-! ### Whole runs -/

/-- Session `w` watches or resumes the key, once; the others mutate it. -/
def Scenario (w : ι) (key : String) (c : Tasks ι) (e : ι × Action) : Prop :=
  match e.2 with
  | .mutate _ call => e.1 ≠ w ∧ call.key = key
  | .watch k _ => e.1 = w ∧ k = key ∧ (c.session w).watchStreamId key = none
  | .resume k _ _ => e.1 = w ∧ k = key ∧ (c.session w).watchStreamId key = none
  | .proceed => True

/-- Deltas are published in version order, and between the read of `w` and its
STATE_INIT none of a mutation that came after the read. -/
def InWindow (w : ι) (c : Tasks ι) (e : ι × Action) : Prop :=
  Turn c e ∧ ∀ d ∈ (c.handler e.1).holding, ∀ readAt ∈ (c.handler w).readAt, d.2 ≤ readAt

def ReplayKeys (e : ι × Action) : Prop :=
  match e.2 with
  | .mutate _ call => (call.value.getD .null).AllKeys ReplayKey
  | _ => True

def Careful (w : ι) (key : String) (c : Tasks ι) (e : ι × Action) : Prop :=
  Scenario w key c e ∧ InWindow w c e ∧ ReplayKeys e

instance decidableScenario [DecidableEq ι] (w : ι) (key : String) (c : Tasks ι) (e : ι × Action) :
    Decidable (Scenario w key c e) := by
  unfold Scenario
  split <;> infer_instance

instance decidableReplayKeys (e : ι × Action) : Decidable (ReplayKeys e) := by
  unfold ReplayKeys
  split <;> infer_instance

instance decidableCareful [DecidableEq ι] [Fintype ι] (w : ι) (key : String) (c : Tasks ι)
    (e : ι × Action) : Decidable (Careful w key c e) := by
  unfold Careful InWindow
  infer_instance

structure Ready (client : SodpClient) (w : ι) (key : String) (c : Tasks ι) : Prop where
  idle : ∀ i, c.handler i = .idle
  ids : ∀ i, i ≠ w → (c.session i).id ≠ (c.session w).id
  unwatched : Unwatched client w key c
  keys : (c.server.state.valueOf key).AllKeys ReplayKey

structure Watching (client : SodpClient) (w : ι) (key : String) (c : Tasks ι) : Prop where
  ids : ∀ i, i ≠ w → (c.session i).id ≠ (c.session w).id
  others : ∀ i, i ≠ w → c.handler i = .idle ∨
    ∃ source k v ops, c.handler i = .publishing source k v ops
  stage : ∃ published line, Line key c published line ∧ Stage client w key c published line

theorem Ready.watching (h : Ready client w key c) : Watching client w key c where
  ids := h.ids
  others i _ := .inl (h.idle i)
  stage := by
    refine ⟨(c.server.state.get key).map StateEntry.value, [], ?_,
      .unwatched (h.idle w) h.unwatched⟩
    constructor
    · simp
    · intro i source k v ops hi
      rw [h.idle i] at hi
      cases hi
    · exact List.Pairwise.nil
    · exact List.Pairwise.nil
    · simp
    · rfl
    · rfl
    · exact h.keys
    · simp

section Runs
variable [DecidableEq ι]

section
variable (h : Watching client w key c)
include h

theorem Watching.mutate {i : ι} {source : Source} {call : Call}
    (hi : i ≠ w) (hkey : call.key = key) (hvalue : (call.value.getD .null).AllKeys ReplayKey)
    (hstep : step c (i, .mutate source call) = some c') : Watching client w key c' := by
  obtain ⟨hidle, handler, rfl, hcase⟩ := step_mutate hstep
  obtain ⟨published, line, hline, hstage⟩ := h.stage
  have hsession := moved_same_session c i
    { c.server with state := (c.server.state.exec call).1 } handler
  have hunaware : Unaware w c (c.moved i
      ({ c.server with state := (c.server.state.exec call).1 }, c.session i) handler) := by
    refine ⟨moved_handler_of_ne c hi.symm _ _, by rw [hsession], ?_, fun k => rfl⟩
    rw [queue, hsession]
    rfl
  constructor
  · rw [hsession]
    exact h.ids
  · intro j hj
    by_cases hji : j = i
    · subst hji
      rw [moved_handler_self]
      rcases hcase with ⟨rfl, -⟩ | ⟨version, ops, -, rfl⟩
      · exact .inl rfl
      · exact .inr ⟨_, _, _, _, rfl⟩
    · rw [moved_handler_of_ne c hji]
      exact h.others j hj
  · have hgrows := globalVersion_le_exec c.server.state call
    rcases hcase with ⟨rfl, hquiet⟩ | ⟨version, ops, hresult, rfl⟩
    · refine ⟨published, line, hline.quiet hidle hquiet, ?_⟩
      rw [← append_nil line]
      exact hstage.extend hunaware hgrows (by simp)
    · refine ⟨published, _, hline.mutate hidle hkey hvalue hresult,
        hstage.extend hunaware hgrows fun p hp => ?_⟩
      rw [mem_singleton.mp hp]
      change c.server.state.globalVersion < version
      rw [version_exec hresult]
      omega

theorem Watching.publish {i : ι} {action : Action} {source : Source} {k : String} {version : ℕ}
    {ops : List DeltaOp} (hi : i ≠ w) (hkey : key ≠ "")
    (hpub : c.handler i = .publishing source k version ops) (hwindow : InWindow w c (i, action))
    (hstep : step c (i, action) = some c') (hopen : c'.IsOpen w) : Watching client w key c' := by
  obtain ⟨-, rfl⟩ := step_publish hpub hstep
  obtain ⟨_, _, hline, hstage⟩ := h.stage
  obtain ⟨rfl, -⟩ := hline.all i source k version ops hpub
  obtain ⟨p, rest, rfl, htask, hversion, hops⟩ := hline.first hpub hwindow.1
  have hsession := moved_same_session c i
    (c.server.deliver source (c.session i) k version ops) .idle
  rw [IsOpen, hsession] at hopen
  obtain ⟨hstreams, hqueue⟩ := deliver_of_open (h.ids i hi).symm hopen
  have hstate := c.server.state_deliver source (c.session i) k version ops
  have htold : Told w k p c
      (c.moved i (c.server.deliver source (c.session i) k version ops, c.session i) .idle) := by
    refine ⟨moved_handler_of_ne c hi.symm _ _, by rw [hsession], ?_, hstreams, ?_⟩
    · rw [queue, hsession]
      change ((c.server.deliver source (c.session i) k version ops).handles
        (c.session w).id).queue = _
      rw [hqueue, WriteHandle.queue_push, hversion, hops]
      rfl
    · change _ ≤ (c.server.deliver source (c.session i) k version ops).state.globalVersion
      rw [hstate]
  have hlineOps := hline.ops
  rw [map_cons, map_cons, deltas, List.cons.injEq] at hlineOps
  refine ⟨by rw [hsession]; exact h.ids, ?_, p.after, rest, hline.publish htask hstate, ?_⟩
  · intro j hj
    by_cases hji : j = i
    · subst hji
      exact .inl (moved_handler_self ..)
    · rw [moved_handler_of_ne c hji]
      exact h.others j hj
  · refine hstage.publish htold hkey ?_ hline.published_keys
      (hline.after_keys p mem_cons_self) hlineOps.1
    intro readAt hread
    rw [hversion]
    exact hwindow.2 (k, version) (by rw [hpub]; rfl) readAt hread

theorem Watching.of_stage {next : SodpServer × Session} {handler : Handler}
    (hline : Line key c published line)
    (hw : (c.handler w).holding = none) (hhandler : handler.holding = none)
    (hid : next.2.id = (c.session w).id) (hstate : next.1.state = c.server.state)
    (hstage : Stage client w key (c.moved w next handler) published line) :
    Watching client w key (c.moved w next handler) where
  ids i hi := by
    rw [moved_session_of_ne c hi, moved_session_self, hid]
    exact h.ids i hi
  others i hi := by
    rw [moved_handler_of_ne c hi]
    exact h.others i hi
  stage := ⟨published, line, hline.of_watcher hw hhandler hstate, hstage⟩

theorem Watching.advance {action : Action}
    (hscenario : Scenario w key c (w, action)) (hstep : step c (w, action) = some c')
    (hopen : c'.IsOpen w) : Watching client w key c' := by
  obtain ⟨_, line, hline, hstage⟩ := h.stage
  cases hstage with
  | unwatched hw hu =>
    have hnone : (c.handler w).holding = none := by rw [hw]; rfl
    cases action with
    | mutate => exact absurd rfl hscenario.1
    | proceed => simp [step, hw] at hstep
    | watch k params =>
      obtain ⟨-, rfl, -⟩ := hscenario
      simp only [step, hw] at hstep
      cases hstep
      exact h.of_stage hline hnone rfl rfl rfl
        (.subscribed _ params (moved_handler_self ..) (hu.openStream _))
    | resume k since params =>
      obtain ⟨-, rfl, -⟩ := hscenario
      simp only [step, hw] at hstep
      cases hstep
      exact h.of_stage hline hnone rfl rfl rfl
        (.replaying _ since params (moved_handler_self ..) (hu.openStream _))
  | replaying sid since params hw ho =>
    have hnone : (c.handler w).holding = none := by rw [hw]; rfl
    cases action with
    | proceed =>
      simp only [step, hw] at hstep
      cases hstep
      obtain ⟨hstate, -, hsession⟩ := replayAll_frame sid (c.server, c.session w)
        (if 0 < since then c.server.state.deltasSince key since else [])
      rw [← replayMissed_eq] at hstate hsession
      exact h.of_stage hline hnone rfl hsession.id hstate
        (.subscribed sid params (moved_handler_self ..) (ho.replayMissed hopen))
    | _ => simp [step, hw] at hstep
  | subscribed sid params hw ho =>
    have hnone : (c.handler w).holding = none := by rw [hw]; rfl
    cases action with
    | proceed =>
      simp only [step, hw] at hstep
      cases hstep
      refine h.of_stage hline hnone rfl rfl rfl (.snapshotted sid params (c.server.readEntry key)
        c.server.state.globalVersion line [] (moved_handler_self ..) (ho.readEntry _) (le_refl _)
        (append_nil line).symm ?_ (by simp))
      rw [readEntry_value, hline.valueOf]
    | _ => simp [step, hw] at hstep
  | snapshotted sid params entry readAt shown missing hw ho hissued hsplit hentry =>
    have hnone : (c.handler w).holding = none := by rw [hw]; rfl
    cases action with
    | proceed =>
      simp only [step, hw] at hstep
      cases hstep
      subst hsplit
      exact h.of_stage hline hnone rfl rfl rfl (ho.sendStateInit hentry hopen)
    | _ => simp [step, hw] at hstep
  | live sid value hw hstreams hwatches =>
    have hwatched : (c.session w).watchStreamId key ≠ none := by
      rw [ne_eq, Session.watchStreamId_eq_none_iff]
      exact fun hno => hno sid hwatches
    cases action with
    | mutate => exact absurd rfl hscenario.1
    | proceed => simp [step, hw] at hstep
    | watch => exact absurd hscenario.2.2 hwatched
    | resume => exact absurd hscenario.2.2 hwatched

theorem Watching.step {e : ι × Action} (hkey : key ≠ "")
    (hcareful : Careful w key c e) (hstep : Tasks.step c e = some c') (hopen : c'.IsOpen w) :
    Watching client w key c' := by
  obtain ⟨i, action⟩ := e
  obtain ⟨hscenario, hwindow, hkeys⟩ := hcareful
  by_cases hi : i = w
  · subst hi
    exact h.advance hscenario hstep hopen
  · rcases h.others i hi with hidle | ⟨_, k, v, _, hpub⟩
    · cases action with
      | mutate => exact h.mutate hi hscenario.2 hkeys hstep
      | proceed => simp [Tasks.step, hidle] at hstep
      | watch k params | resume k since params => exact absurd hscenario.1 hi
    · exact h.publish hi hkey hpub hwindow hstep hopen

end

theorem watch_catches_up {initial : Tasks ι} {events : List (ι × Action)} (hkey : key ≠ "")
    (hstart : Ready client w key initial) (hrun : run Tasks.step initial events = some c)
    (hcareful : Transition.Along Tasks.step (Careful w key) initial events) (hopen : c.IsOpen w)
    (hdone : ∀ i, c.handler i = .idle) (hwatched : (c.session w).watchStreamId key ≠ none) :
    ∃ e, (settled client c w).watches.get? key = some e ∧
      e.value = .ofJson (c.server.state.valueOf key) := by
  have h : c.IsOpen w → Watching client w key c := by
    refine invariant_along (I := fun c => c.IsOpen w → Watching client w key c) ?_
      (fun _ => hstart.watching) hcareful hrun
    intro s e t hs hok hstep ht
    exact (hs (step_isOpen hstep ht)).step hkey hok hstep ht
  obtain ⟨_, line, hline, hstage⟩ := (h hopen).stage
  have hempty : line = [] := by
    cases line with
    | nil => rfl
    | cons p =>
      have hp := hline.holds p mem_cons_self
      rw [hdone] at hp
      cases hp
  subst hempty
  cases hstage with
  | unwatched hw hu => exact absurd hu.watches hwatched
  | live sid value hw hstreams hwatches hshows htracks =>
    obtain ⟨-, e, he, hvalue⟩ := hshows
    refine ⟨e, he, ?_⟩
    rw [hvalue, htracks.done, ← hline.valueOf]
    rfl
  | replaying sid since params hw => rw [hdone] at hw; cases hw
  | subscribed sid params hw => rw [hdone] at hw; cases hw
  | snapshotted sid params entry readAt shown missing hw => rw [hdone] at hw; cases hw

end Runs

def oneWatcher : Tasks (Fin 2) :=
  ⟨.new, fun i => .new (if i = 0 then "a" else "b") 0 none none, fun _ => .idle⟩

def wantsK : SodpClient := SodpClient.new.register none "k"

theorem oneWatcher_ready : Ready wantsK 0 "k" oneWatcher where
  idle _ := rfl
  ids := by decide
  unwatched :=
    { streams := by decide
      watches := by decide
      unbound := fun streamId _ => OrderedMap.get?_empty streamId
      entry := by decide }
  keys := trivial

/-- The snapshot shows the first value, and the second one follows STATE_INIT. -/
theorem watch_catches_up_two : ∃ c, run Tasks.step oneWatcher
        [(1, .mutate .call (.apply "k" (.bool true))), (0, .watch "k" none), (1, .proceed),
          (0, .proceed), (1, .mutate .call (.apply "k" (.bool false))), (0, .proceed),
          (1, .proceed)] = some c ∧ c.server.state.valueOf "k" = .bool false ∧
      ∃ e, (settled wantsK c 0).watches.get? "k" = some e ∧
        e.value = .ofJson (c.server.state.valueOf "k") := by
  refine exists_run (fun c => (c.server.handles (c.session 0).id).cancelled = false ∧
    (∀ i, (c.handler i).isIdle = true) ∧ (c.session 0).watchStreamId "k" = some 10 ∧
    c.server.state.valueOf "k" = .bool false) (by decide +kernel) ?_
  rintro c hc ⟨hopen, hidle, hstream, hvalue⟩
  refine ⟨hvalue, watch_catches_up (by decide) oneWatcher_ready hc (by decide +kernel) hopen
    (fun i => Handler.eq_idle (hidle i)) ?_⟩
  simp [hstream]

/-- The mutation comes after the read and its delta before STATE_INIT: the client
is left with null. -/
theorem watch_misses_update : Ready wantsK 0 "k" oneWatcher ∧ ∃ c, run Tasks.step oneWatcher
        [(0, .watch "k" none), (0, .proceed), (1, .mutate .call (.apply "k" (.bool true))),
          (1, .proceed), (0, .proceed)] = some c ∧ (∀ i, c.handler i = .idle) ∧ c.IsOpen 0 ∧
      c.server.state.valueOf "k" = .bool true ∧
      ((settled wantsK c 0).watches.get? "k").map Client.WatchEntry.value = some .null := by
  refine ⟨oneWatcher_ready, exists_run (fun c => (∀ i, (c.handler i).isIdle = true) ∧
    (c.server.handles (c.session 0).id).cancelled = false ∧
      c.server.state.valueOf "k" = .bool true ∧
    ((settled wantsK c 0).watches.get? "k").map Client.WatchEntry.value = some .null)
    (by decide +kernel) ?_⟩
  rintro c - ⟨hidle, hrest⟩
  exact ⟨fun i => Handler.eq_idle (hidle i), hrest⟩

end Sodp.Tasks
