import Sodp.ClientRequests
import Sodp.ConnectionSteps
import Sodp.SessionRuns

/-!
# No misrouted delta

A DELTA carries a stream id and no key. The server gives an id to one key of one session for good:
`σ` is that assignment. Whatever is sent under an id was produced for its key, and the client binds
an id only to the key that STATE_INIT names for it.
-/

namespace Sodp
open StateStore Client SodpServer Function Transition List Option SodpClient
open OrderedMap hiding keys

namespace Wires

def Fits (σ : ℕ → Option String) : OutboundMsg → Origin → Prop
  | .delta streamId _ _ _, origin => ∃ k, origin = .change k ∧ σ streamId = some k
  | .stateInit streamId _ k _ _ _ _, _ => σ streamId = some k
  | _, _ => True

def StageFits (σ : String → ℕ → Option String) (s : String) : TaskStage → Prop
  | .opened _ streamId k _ _ => σ s streamId = some k
  | .replaying _ streamId k _ _ => σ s streamId = some k
  | .snapshotted _ streamId k _ _ => σ s streamId = some k
  | .sending change targets _ _ =>
    ∀ t ∈ targets, σ t.sessionId t.streamId = some change.stateKey
  | _ => True

structure TableFits (σ : ℕ → Option String) (s : String) (session : Session) : Prop where
  id : session.id = s
  watches : ∀ n e, session.watches.get? n = some e → σ n = some e.stateKey
  next : ∀ n k, σ n = some k → n < session.nextStreamId

structure Routed (σ : String → ℕ → Option String) (c : Wires) : Prop where
  subscribers : ∀ k, ∀ t ∈ c.server.fanout.subscribersOf k, σ t.sessionId t.streamId = some k
  queued : ∀ s, List.Forall₂ (Fits (σ s)) (c.server.handles s).queue (c.origins s)
  table : ∀ s conn, c.connection s = some conn → TableFits (σ s) s conn.session
  stage : ∀ s conn, c.connection s = some conn → StageFits σ s conn.stage
  fresh : ∀ s, c.connection s = none → ∀ n, σ s n = none
  wire : ∀ s, c.link = some s → ∀ m ∈ c.wire, Fits (σ s) m.1 m.2
  linked : ∀ s, c.link = some s → (c.connection s).isSome
  bound : ∀ s, c.link = some s → ∀ n k, c.client.streamToKey.get? n = some k → σ s n = some k
  unlinked : c.link = none → ∀ n, c.client.streamToKey.get? n = none

/-- Every stream keeps its key. -/
def Extends (σ τ : String → ℕ → Option String) : Prop := ∀ s n k, σ s n = some k → τ s n = some k

variable {σ τ : String → ℕ → Option String} {c c' : Wires} {s : String} {conn : Connection}
  {msg : OutboundMsg} {origin : Origin} {stage : TaskStage} {session : Session}
  {client : SodpClient}

/-! ### What one move preserves -/

theorem Routed.put (h : Routed σ c) (htable : TableFits (σ s) s conn.session)
    (hstage : StageFits σ s conn.stage) : Routed σ (c.put s conn) := by
  refine { h with
    table := fun s' conn' hconn => ?_
    stage := fun s' conn' hconn => ?_
    fresh := fun s' hnone => ?_
    linked := fun s' hlink => ?_ }
  · rw [connection_put] at hconn
    split_ifs at hconn with hs
    · cases hconn
      exact hs ▸ htable
    · exact h.table s' conn' hconn
  · rw [connection_put] at hconn
    split_ifs at hconn with hs
    · cases hconn
      exact hs ▸ hstage
    · exact h.stage s' conn' hconn
  · rw [connection_put] at hnone
    split_ifs at hnone
    exact h.fresh s' hnone
  · rw [connection_put]
    split_ifs
    · rfl
    · exact h.linked s' hlink

theorem Routed.send (h : Routed σ c) (hfits : Fits (σ s) msg origin) :
    Routed σ (c.send s msg origin) := by
  refine { h with queued := fun s' => ?_ }
  have hqueued := h.queued s'
  by_cases hs : s' = s
  · subst hs
    have hqueue : ((c.send s' msg origin).server.handles s').queue = _ :=
      (congrArg WriteHandle.queue (Handles.send_self ..)).trans (WriteHandle.queue_send _ _)
    rw [hqueue, Wires.send]
    dsimp only
    split_ifs
    · rw [update_self]
      exact rel_append hqueued (.cons hfits .nil)
    · rwa [append_nil]
  · have hqueue : (c.send s msg origin).server.handles s' = c.server.handles s' :=
      Handles.send_of_ne _ hs _
    rw [hqueue, Wires.send]
    dsimp only
    split_ifs
    · rwa [update_of_ne hs]
    · exact hqueued

theorem Routed.withServer (h : Routed σ c) {server : SodpServer}
    (hhandles : server.handles = c.server.handles)
    (hsubs : ∀ k, ∀ t ∈ server.fanout.subscribersOf k, t ∈ c.server.fanout.subscribersOf k) :
    Routed σ { c with server := server } := by
  refine { h with
    subscribers := fun k t ht => h.subscribers k t (hsubs k t ht)
    queued := fun s' => ?_ }
  rw [hhandles]
  exact h.queued s'

theorem TableFits.of_standing {σ : ℕ → Option String} {a b : Session} (h : TableFits σ s a)
    (hsame : a.SameStanding b) : TableFits σ s b where
  id := hsame.id.trans h.id
  watches n e he := by
    obtain ⟨e', he', hkey⟩ := (hsame.watches n e.stateKey).mp ⟨e, he, rfl⟩
    rw [← hkey]
    exact h.watches n e' he'
  next n k hk := by
    rw [hsame.nextStreamId]
    exact h.next n k hk

theorem TableFits.own {σ : ℕ → Option String} (h : TableFits σ s session)
    (presence : Option PresenceEntry) : TableFits σ s (SodpServer.own session presence) := by
  cases presence with
  | none => exact h
  | some =>
    rw [SodpServer.own, Session.addPresence]
    split_ifs
    · exact h
    · exact ⟨h.id, h.watches, h.next⟩

theorem Routed.reply (h : Routed σ c) (htable : TableFits (σ s) s conn.session)
    {msg : ℕ → OutboundMsg} (hfits : ∀ seq, Fits (σ s) (msg seq) origin)
    (hstage : StageFits σ s stage) : Routed σ (c.reply s conn origin msg stage) :=
  (h.send (hfits _)).put (htable.of_standing conn.session.sameStanding_nextSeq) hstage

theorem Routed.mutate (h : Routed σ c) (htable : TableFits (σ s) s conn.session) (call : Call)
    {changed : Change → TaskStage} {unchanged : ℕ → TaskStage}
    (hchanged : ∀ change, StageFits σ s (changed change))
    (hunchanged : ∀ version, StageFits σ s (unchanged version)) :
    Routed σ (c.mutate s conn call changed unchanged) := by
  rw [Wires.mutate]
  have hserver : Routed σ { c with
      server := { c.server with state := (c.server.state.exec call).1 } } :=
    h.withServer rfl fun _ _ ht => ht
  split
  · exact hserver.put htable (hunchanged 0)
  · refine hserver.put htable ?_
    split_ifs
    · exact hunchanged _
    · exact hchanged _

/-! ### A new stream -/

def assign (σ : String → ℕ → Option String) (s : String) (streamId : ℕ) (k : String) :
    String → ℕ → Option String :=
  update σ s (update (σ s) streamId (some k))

/-- The stream that the task of `s` opens in its next step, with its key. -/
def opens (srv : SodpServer) (s : String) (conn : Connection) : Option (String × ℕ × String) :=
  match conn.stage with
  | .opening _ ((k, _) :: _) =>
    if srv.canRead conn.session k then some (s, conn.session.nextStreamId, k) else none
  | _ => none

def grown (σ : String → ℕ → Option String) :
    Option (String × ℕ × String) → String → ℕ → Option String
  | none => σ
  | some opened => assign σ opened.1 opened.2.1 opened.2.2

theorem assign_self (σ : String → ℕ → Option String) (s : String) (streamId : ℕ) (k : String) :
    assign σ s streamId k s streamId = some k := by
  rw [assign, update_self, update_self]

theorem extends_assign {streamId : ℕ} (hnew : σ s streamId = none) (k : String) :
    Extends σ (assign σ s streamId k) := by
  intro s' n j h
  rw [assign]
  by_cases hs : s' = s
  · subst hs
    rw [update_self, update_of_ne]
    · exact h
    · rintro rfl
      rw [hnew] at h
      cases h
  · rwa [update_of_ne hs]

theorem Fits.mono (hle : Extends σ τ) (h : Fits (σ s) msg origin) : Fits (τ s) msg origin := by
  cases msg with
  | delta =>
    obtain ⟨k, horigin, hk⟩ := h
    exact ⟨k, horigin, hle _ _ _ hk⟩
  | stateInit => exact hle _ _ _ h
  | _ => trivial

theorem StageFits.mono (hle : Extends σ τ) (h : StageFits σ s stage) : StageFits τ s stage := by
  cases stage with
  | opened | replaying | snapshotted => exact hle _ _ _ h
  | sending => exact fun t ht => hle _ _ _ (h t ht)
  | _ => trivial

theorem TableFits.next_unassigned {σ : ℕ → Option String} (h : TableFits σ s session) :
    σ session.nextStreamId = none := by
  rw [eq_none_iff_forall_ne_some]
  exact fun j hj => absurd (h.next _ j hj) (lt_irrefl _)

theorem extends_grown (htable : TableFits (σ s) s conn.session) (srv : SodpServer) :
    Extends σ (grown σ (opens srv s conn)) := by
  rw [opens]
  split
  · split_ifs
    · exact extends_assign htable.next_unassigned _
    · exact fun _ _ _ => id
  · exact fun _ _ _ => id

theorem TableFits.openStream {σ : ℕ → Option String} (h : TableFits σ s session)
    (srv : SodpServer) (k : String) (params : Option Value) :
    TableFits (update σ session.nextStreamId (some k)) s (srv.openStream session k params).2 := by
  refine ⟨h.id, fun n e he => ?_, fun n j hj => ?_⟩
  · change (session.watches.insert session.nextStreamId ⟨k, 0, params⟩).get? n = _ at he
    rw [get?_insert] at he
    rw [update_apply]
    split_ifs at he ⊢
    · cases he
      rfl
    · exact h.watches n e he
  · rw [update_apply] at hj
    change n < session.nextStreamId + 1
    split_ifs at hj
    · omega
    · have hlt := h.next n j hj
      omega

theorem Routed.openStream (h : Routed σ c) (hconn : c.connection s = some conn) (k : String)
    (params : Option Value) (hstage : StageFits (assign σ s conn.session.nextStreamId k) s stage) :
    Routed (assign σ s conn.session.nextStreamId k)
      ({ c with server := (c.server.openStream conn.session k params).1 }.put s { conn with
          session := (c.server.openStream conn.session k params).2
          stage := stage }) := by
  have htable := h.table s conn hconn
  have hle := extends_assign htable.next_unassigned k
  have hself := assign_self σ s conn.session.nextStreamId k
  have hother : ∀ s', s' ≠ s → assign σ s conn.session.nextStreamId k s' = σ s' :=
    fun s' hs => update_of_ne hs _ _
  have hopened : TableFits (assign σ s conn.session.nextStreamId k s) s
      (c.server.openStream conn.session k params).2 := by
    rw [assign, update_self]
    exact htable.openStream c.server k params
  refine ⟨fun j t ht => ?_, fun s' => ?_, fun s' conn' hc => ?_, fun s' conn' hc => ?_,
    fun s' hnone n => ?_, fun s' hlink m hm => ?_, fun s' hlink => ?_, fun s' hlink n j hj => ?_,
    h.unlinked⟩
  · change t ∈ (c.server.fanout.subscribe k ⟨conn.session.id, _⟩).subscribersOf j at ht
    rw [FanoutBus.subscribersOf_subscribe] at ht
    split_ifs at ht with hj
    · rcases mem_append.mp ht with hold | hnew
      · exact hle _ _ _ (h.subscribers j t hold)
      · rw [mem_singleton.mp hnew, htable.id, hj]
        exact hself
    · exact hle _ _ _ (h.subscribers j t ht)
  · exact (h.queued s').imp fun _ _ hfits => hfits.mono hle
  · rw [connection_put] at hc
    split_ifs at hc with hs
    · cases hc
      rw [hs]
      exact hopened
    · rw [hother s' hs]
      exact h.table s' conn' hc
  · rw [connection_put] at hc
    split_ifs at hc with hs
    · cases hc
      rw [hs]
      exact hstage
    · exact (h.stage s' conn' hc).mono hle
  · rw [connection_put] at hnone
    split_ifs at hnone with hs
    rw [hother s' hs]
    exact h.fresh s' hnone n
  · exact (h.wire s' hlink m hm).mono hle
  · rw [connection_put]
    split_ifs
    · rfl
    · exact h.linked s' hlink
  · exact hle s' n j (h.bound s' hlink n j hj)

/-! ### One step of a task -/

theorem sameStanding_takeFrame (srv : SodpServer) (session : Session) (frame : Frame) (now : ℕ) :
    session.SameStanding (srv.takeFrame session frame now).1 := by
  rw [takeFrame]
  cases frame.frameType with
  | watch | resume => exact session.sameStanding_allowWatch now
  | call =>
    cases (frame.body.get? "method").bind Value.asStr with
    | none => exact ⟨rfl, rfl, rfl, rfl, rfl, fun _ _ => Iff.rfl⟩
    | some => exact session.sameStanding_allowWrite now
  | ack => exact session.sameStanding_ackStream _ _
  | _ => exact ⟨rfl, rfl, rfl, rfl, rfl, fun _ _ => Iff.rfl⟩

theorem stageFits_takeFrame {srv : SodpServer} {frame : Frame} {now : ℕ}
    (h : (srv.takeFrame session frame now).2 = .ok stage) : StageFits σ s stage := by
  have hstarts := starts_takeFrame h
  cases stage with
  | opened | replaying | snapshotted | sending => exact hstarts.elim
  | _ => trivial

theorem fits_forbidden (σ : ℕ → Option String) (frame : Frame) (k : String) (seq : ℕ)
    (origin : Origin) : Fits σ (forbidden frame k seq) origin := by
  rw [forbidden]
  split_ifs <;> trivial

theorem TableFits.unwatchKey {σ : ℕ → Option String} (h : TableFits σ s session) (srv : SodpServer)
    (k : String) :
    TableFits σ s (SodpServer.unwatchKey (srv, session) k).2 := by
  rw [SodpServer.unwatchKey]
  cases session.watchStreamId k with
  | none => exact h
  | some streamId =>
    refine ⟨h.id, fun n e he => ?_, h.next⟩
    change (session.watches.erase streamId).get? n = some e at he
    rw [get?_erase] at he
    split_ifs at he
    exact h.watches n e he

section Stages
variable {now : ℕ} {inbound : List Frame} (h : Routed σ c) (htable : TableFits (σ s) s session)
include h htable

theorem Routed.idle (hstep : c.advance s now ⟨session, inbound, .idle⟩ = some c') :
    Routed σ c' := by
  cases inbound with
  | nil => cases hstep
  | cons frame =>
    rw [Wires.advance] at hstep
    have htaken := htable.of_standing (sameStanding_takeFrame c.server session frame now)
    cases htake : (c.server.takeFrame session frame now).2 <;> simp only [htake] at hstep
    case error =>
      cases hstep
      refine h.reply htaken ?_ trivial
      exact fun _ => trivial
    case ok =>
      cases hstep
      exact h.put htaken (stageFits_takeFrame htake)

theorem Routed.replaying {frame : Frame} {streamId : ℕ} {k : String}
    {missed : List (ℕ × List DeltaOp)} {rest : List (String × ℕ)} (hk : σ s streamId = some k)
    (hstep : c.advance s now ⟨session, inbound, .replaying frame streamId k missed rest⟩ =
      some c') :
    Routed σ c' := by
  cases missed with
  | nil =>
    cases hstep
    exact h.put htable hk
  | cons =>
    cases hstep
    refine h.reply htable ?_ hk
    exact fun _ => ⟨k, rfl, hk⟩

theorem Routed.closing {keys : List String}
    (hstep : c.advance s now ⟨session, inbound, .closing keys⟩ = some c') : Routed σ c' := by
  cases keys with
  | nil =>
    cases hstep
    exact h.put htable trivial
  | cons k =>
    cases hstep
    have hserver : Routed σ { c with server := (unwatchKey (c.server, session) k).1 } := by
      rw [unwatchKey]
      cases session.watchStreamId k with
      | none => exact h
      | some =>
        refine h.withServer rfl fun j t ht => ?_
        rw [FanoutBus.unsubscribe, FanoutBus.subscribersOf_retain] at ht
        split_ifs at ht
        · exact mem_of_mem_filter ht
        · exact ht
    exact hserver.put (htable.unwatchKey ..) trivial

theorem Routed.sending {change : Change} {targets : List Subscriber} {slow : List String}
    {next : AfterPublish} (hfits : ∀ t ∈ targets, σ t.sessionId t.streamId = some change.stateKey)
    (hstep : c.advance s now ⟨session, inbound, .sending change targets slow next⟩ = some c') :
    Routed σ c' := by
  cases targets with
  | nil =>
    cases hstep
    have hserver : Routed σ { c with server := { c.server with
        fanout := if slow.isEmpty then c.server.fanout
          else c.server.fanout.retain change.stateKey fun t => t.sessionId ∉ slow } } := by
      refine h.withServer rfl fun j t ht => ?_
      split_ifs at ht
      · exact ht
      · rw [FanoutBus.subscribersOf_retain] at ht
        split_ifs at ht
        · exact mem_of_mem_filter ht
        · exact ht
    refine hserver.put htable ?_
    cases next <;> trivial
  | cons target =>
    cases hstep
    have hsent : Routed σ (c.send target.sessionId
        (.delta target.streamId 0 change.version change.ops) (.change change.stateKey)) :=
      h.send ⟨_, rfl, hfits target mem_cons_self⟩
    exact hsent.put htable fun t ht => hfits t (mem_cons_of_mem _ ht)

theorem Routed.delivering {change : Change} {frame : Frame} {presence : Option PresenceEntry}
    (hstep : c.advance s now ⟨session, inbound, .delivering change frame presence⟩ = some c') :
    Routed σ c' := by
  cases hstep
  refine Routed.put ?_ htable trivial
  cases hid : session.watchStreamId change.stateKey with
  | none => exact h
  | some =>
    obtain ⟨e, he, hkey⟩ := Session.watches_of_watchStreamId hid
    exact h.send ⟨_, rfl, hkey ▸ htable.watches _ e he⟩

theorem Routed.cleaning {entries : List PresenceEntry}
    (hstep : c.advance s now ⟨session, inbound, .cleaning entries⟩ = some c') : Routed σ c' := by
  cases entries with
  | nil =>
    cases hstep
    have hserver : Routed σ { c with server := { c.server with
        fanout := c.server.fanout.removeSession s } } := by
      refine h.withServer rfl fun j t ht => ?_
      rw [FanoutBus.subscribersOf_removeSession] at ht
      exact mem_of_mem_filter ht
    exact hserver.put htable trivial
  | cons =>
    dsimp only [Wires.advance] at hstep
    split at hstep
    · cases hstep
      exact h.put htable trivial
    · cases hstep
      exact h.mutate htable _ (fun _ => trivial) fun _ => trivial

end Stages

theorem Routed.opening {now : ℕ} {inbound : List Frame} {frame : Frame}
    {requests : List (String × ℕ)} (h : Routed σ c)
    (hconn : c.connection s = some ⟨session, inbound, .opening frame requests⟩)
    (hstep : c.advance s now ⟨session, inbound, .opening frame requests⟩ = some c') :
    Routed (grown σ (opens c.server s ⟨session, inbound, .opening frame requests⟩)) c' := by
  have htable := h.table s _ hconn
  cases requests with
  | nil =>
    cases hstep
    exact h.put htable trivial
  | cons request =>
    dsimp only [Wires.advance, opens] at hstep ⊢
    split_ifs at hstep ⊢
    · cases hstep
      exact h.openStream hconn request.1 _ (assign_self ..)
    · cases hstep
      refine h.reply htable ?_ trivial
      exact fun seq => fits_forbidden _ frame request.1 seq _

theorem Routed.advance (h : Routed σ c) (hconn : c.connection s = some conn) {now : ℕ}
    (hstep : c.advance s now conn = some c') : Routed (grown σ (opens c.server s conn)) c' := by
  have htable := h.table s conn hconn
  have hstage := h.stage s conn hconn
  obtain ⟨session, inbound, stage⟩ := conn
  cases stage with
  | idle => exact h.idle htable hstep
  | opening => exact h.opening hconn hstep
  | replaying => exact h.replaying htable hstage hstep
  | closing => exact h.closing htable hstep
  | sending => exact h.sending htable hstage hstep
  | delivering => exact h.delivering htable hstep
  | cleaning => exact h.cleaning htable hstep
  | echoing =>
    cases hstep
    refine Routed.put (h.send ?_) htable trivial
    trivial
  | opened =>
    cases hstep
    exact h.put htable hstage
  | snapshotted =>
    cases hstep
    refine h.reply htable ?_ trivial
    exact fun _ => hstage
  | accepted =>
    cases hstep
    exact h.mutate htable _ (fun _ => trivial) fun _ => trivial
  | publishing =>
    cases hstep
    exact h.put htable fun t ht => h.subscribers _ t (mem_of_mem_filter ht)
  | answering frame presence =>
    cases hstep
    refine h.reply (htable.own presence) ?_ trivial
    exact fun _ => trivial
  | ended => cases hstep

/-! ### One event -/

theorem unwatch_bound {key k : String} {n : ℕ}
    (h : (client.unwatch key).1.streamToKey.get? n = some k) :
    client.streamToKey.get? n = some k := by
  have hunbind : ∀ {c : SodpClient}, (c.unbind key).streamToKey.get? n = some k →
      c.streamToKey.get? n = some k := by
    intro c hc
    rw [SodpClient.unbind] at hc
    split at hc
    · exact hc
    · rw [get?_erase] at hc
      split_ifs at hc
      exact hc
  rw [SodpClient.unwatch] at h
  split_ifs at h
  · exact h
  · have hsent := hunbind h
    exact hsent
  · have hsent := hunbind h
    exact hsent

theorem Routed.exchange (h : Routed σ c) {sent : SodpClient × List Frame}
    (hsent : ∀ n k, sent.1.streamToKey.get? n = some k → c.client.streamToKey.get? n = some k) :
    Routed σ (c.exchange sent) := by
  have hclient : Routed σ { c with client := sent.1 } := by
    refine { h with
      bound := fun s hlink n k hk => h.bound s hlink n k (hsent n k hk)
      unlinked := fun hlink n => ?_ }
    rw [eq_none_iff_forall_ne_some]
    intro k hk
    have hold := hsent n k hk
    rw [h.unlinked hlink n] at hold
    cases hold
  rw [Wires.exchange]
  split
  · exact hclient
  · split
    · exact hclient
    · next conn hconn =>
      exact hclient.put (hclient.table _ conn hconn) (hclient.stage _ conn hconn)

theorem Routed.accept (h : Routed σ c) (hnone : c.connection s = none) (now : ℕ)
    (sub : Option String) (claims : Value) : Routed σ (c.accept s now sub claims) := by
  have hfresh := h.fresh s hnone
  have hserver : Routed σ { c with
      server := (c.server.accept s now).1, origins := update c.origins s [] } := by
    refine { h with queued := fun s' => ?_ }
    change List.Forall₂ _ (update c.server.handles s _ s').queue (update c.origins s [] s')
    rw [update_apply, update_apply]
    split_ifs
    · exact .nil
    · exact h.queued s'
  refine hserver.put ⟨rfl, fun n e he => ?_, fun n k hk => ?_⟩ trivial
  · change (OrderedMap.empty : OrderedMap ℕ WatchEntry).get? n = some e at he
    rw [get?_empty] at he
    cases he
  · rw [hfresh n] at hk
    cases hk

theorem handleFrame_bound {τ : ℕ → Option String} (hfits : Fits τ msg origin)
    (hbound : ∀ n k, client.streamToKey.get? n = some k → τ n = some k) :
    ∀ n k, (client.handleFrame msg).streamToKey.get? n = some k → τ n = some k := by
  intro n k hk
  cases msg with
  | stateInit streamId seq key =>
    rw [SodpClient.handleFrame, SodpClient.onStateInit] at hk
    split at hk
    · exact hbound n k hk
    · change (client.streamToKey.insert streamId key).get? n = some k at hk
      rw [get?_insert] at hk
      split_ifs at hk with hn
      · cases hk
        rw [hn]
        exact hfits
      · exact hbound n k hk
  | delta =>
    refine hbound n k (?_ : client.streamToKey.get? n = some k)
    rw [SodpClient.handleFrame, SodpClient.onDelta] at hk
    split at hk
    · exact hk
    · split at hk
      · exact hk
      · split at hk <;> exact hk
  | resultOk | error | heartbeat => exact hbound n k hk

theorem Routed.write (h : Routed σ c) {s : String} (hstep : Wires.step c (.write s) = some c') :
    Routed σ c' := by
  rw [Wires.step] at hstep
  split at hstep
  · next origins hqueue horigins =>
    cases hstep
    have hqueued := h.queued s
    rw [hqueue, horigins] at hqueued
    obtain ⟨hfits, hrest⟩ := List.forall₂_cons.mp hqueued
    refine { h with
      queued := fun s' => ?_
      wire := fun s' hlink m hm => ?_ }
    · change List.Forall₂ _ (update c.server.handles s _ s').queue (update c.origins s origins s')
      rw [update_apply, update_apply]
      split_ifs with hs
      · rw [hs]
        exact hrest
      · exact h.queued s'
    · dsimp only at hlink hm
      split_ifs at hm with hs
      · rcases mem_append.mp hm with hold | hnew
        · exact h.wire s' hlink m hold
        · have hsame : s = s' := some.inj (hs.symm.trans hlink)
          rw [mem_singleton.mp hnew, ← hsame]
          exact hfits
      · exact h.wire s' hlink m hm
  · cases hstep

theorem Routed.connect (h : Routed σ c) {s : String} {now : ℕ} {sub : Option String}
    {claims : Value} (hstep : Wires.step c (.connect s now sub claims) = some c') :
    Routed σ c' := by
  rw [Wires.step] at hstep
  split at hstep
  · next hlink hconn =>
    cases hstep
    have haccept := h.accept hconn now sub claims
    have hconnected : Routed σ { c.accept s now sub claims with link := some s, wire := [] } := by
      refine { haccept with
        wire := fun _ _ m hm => absurd hm not_mem_nil
        linked := fun s' hs => ?_
        bound := fun s' _ n k hk => ?_
        unlinked := fun hnone => by cases hnone }
      · cases hs
        rw [Wires.accept, connection_put, if_pos rfl]
        rfl
      · have hunlinked := h.unlinked hlink n
        change c.client.streamToKey.get? n = some k at hk
        rw [hunlinked] at hk
        cases hk
    refine hconnected.exchange fun n k hk => ?_
    rw [(onReady_asks _).1.streamToKey] at hk
    exact hk
  · cases hstep

theorem Routed.receive (h : Routed σ c) (hstep : Wires.step c .receive = some c') :
    Routed σ c' := by
  rw [Wires.step] at hstep
  split at hstep
  · next s msg origin wire hlink hwire =>
    cases hstep
    have hfits := h.wire s hlink (msg, origin) (by rw [hwire]; exact mem_cons_self)
    refine { h with
      wire := fun s' hlink' m hm => ?_
      bound := fun s' hlink' => ?_
      unlinked := fun hnone => ?_ }
    · exact h.wire s' hlink' m (by rw [hwire]; exact mem_cons_of_mem _ hm)
    · cases some.inj (hlink.symm.trans hlink')
      exact handleFrame_bound hfits (h.bound s hlink)
    · cases hlink.symm.trans hnone
  · cases hstep

theorem Routed.lose (h : Routed σ c) (hstep : Wires.step c .lose = some c') : Routed σ c' := by
  rw [Wires.step] at hstep
  split at hstep
  · cases hstep
  · cases hstep
    exact { h with
      wire := fun s hlink => by cases hlink
      linked := fun s hlink => by cases hlink
      bound := fun s hlink => by cases hlink
      unlinked := fun _ n => get?_empty n }

/-- Only tasks open streams. -/
def opened (c : Wires) : Event → Option (String × ℕ × String)
  | .task s _ => (c.connection s).bind (opens c.server s)
  | _ => none

theorem opened_task (hconn : c.connection s = some conn) (now : ℕ) :
    c.opened (.task s now) = opens c.server s conn := by
  rw [opened, hconn, bind_some]

theorem Routed.extends_opened (h : Routed σ c) (e : Event) :
    Extends σ (grown σ (c.opened e)) := by
  cases e with
  | task s now =>
    cases hconn : c.connection s with
    | none =>
      rw [Wires.opened, hconn]
      exact fun _ _ _ => id
    | some conn =>
      rw [opened_task hconn]
      exact extends_grown (h.table s conn hconn) _
  | _ => exact fun _ _ _ => id

theorem Routed.step (h : Routed σ c) {e : Event} (hstep : Wires.step c e = some c') :
    Routed (grown σ (c.opened e)) c' := by
  cases e with
  | task s =>
    rw [Wires.step] at hstep
    cases hconn : c.connection s with
    | none => simp [hconn] at hstep
    | some =>
      rw [hconn] at hstep
      rw [opened_task hconn]
      exact h.advance hconn hstep
  | close s =>
    rw [Wires.step] at hstep
    split at hstep
    · next hconn =>
      cases hstep
      have htable := h.table s _ hconn
      exact h.put htable trivial
    · cases hstep
  | join s now sub claims =>
    rw [Wires.step] at hstep
    cases hconn : c.connection s with
    | some => simp [hconn] at hstep
    | none =>
      simp only [hconn] at hstep
      cases hstep
      exact h.accept hconn now sub claims
  | arrive s =>
    rw [Wires.step] at hstep
    split at hstep
    · next conn hconn =>
      split_ifs at hstep
      cases hstep
      exact h.put (h.table s conn hconn) (h.stage s conn hconn)
    · cases hstep
  | write => exact h.write hstep
  | connect => exact h.connect hstep
  | watch key params =>
    cases hstep
    refine h.exchange fun n k hk => ?_
    rwa [(c.client.watch_asks key params).1.streamToKey] at hk
  | watchMany keys params =>
    cases hstep
    refine h.exchange fun n k hk => ?_
    rwa [(c.client.watchMany_asks keys params).1.streamToKey] at hk
  | unsubscribe =>
    cases hstep
    refine h.exchange fun n k hk => ?_
    rwa [unsubscribe_streamToKey] at hk
  | unwatch =>
    cases hstep
    exact h.exchange fun n k hk => unwatch_bound hk
  | call =>
    cases hstep
    exact h.exchange fun n k hk => hk
  | receive => exact h.receive hstep
  | lose => exact h.lose hstep

/-! ### Every run -/

theorem routed_start (server : SodpServer) : Routed (fun _ _ => none) (start server) where
  subscribers k t ht := by
    change t ∈ FanoutBus.new.subscribersOf k at ht
    rw [FanoutBus.subscribersOf_new] at ht
    cases ht
  queued _ := .nil
  table s conn hconn := by cases hconn
  stage s conn hconn := by cases hconn
  fresh _ _ _ := rfl
  wire s hlink := by cases hlink
  linked s hlink := by cases hlink
  bound s hlink := by cases hlink
  unlinked _ n := get?_empty n

theorem onDelta_watches {streamId : ℕ} {k j : String}
    (hkey : ∀ i, client.keyOf streamId = some i → i = k) (hj : j ≠ k) (version : ℕ)
    (ops : List DeltaOp) :
    (client.onDelta streamId version ops).watches.get? j = client.watches.get? j := by
  rw [SodpClient.onDelta]
  split
  · rfl
  · next i hi =>
    split
    · rfl
    · split
      · rfl
      · rw [SodpClient.setEntry, get?_insert_of_ne]
        rw [hkey i hi]
        exact hj

/-- A DELTA that the server produced for key `k` is applied to the entry of `k`, if to any. -/
theorem no_misrouted_delta {server : SodpServer} {events : List Event} {c c' : Wires}
    {streamId seq version : ℕ} {ops : List DeltaOp} {origin : Origin}
    {rest : List (OutboundMsg × Origin)} (hrun : run step (start server) events = some c)
    (hwire : c.wire = (.delta streamId seq version ops, origin) :: rest)
    (hreceive : step c .receive = some c') :
    ∃ k, origin = .change k ∧ (∀ j, c.client.keyOf streamId = some j → j = k) ∧
      ∀ j, j ≠ k → c'.client.watches.get? j = c.client.watches.get? j := by
  obtain ⟨σ, hrouted⟩ := invariant (I := fun c => ∃ σ, Routed σ c)
    (fun _ _ _ ⟨_, hI⟩ ht => ⟨_, hI.step ht⟩) ⟨_, routed_start server⟩ hrun
  rw [step, hwire] at hreceive
  cases hlink : c.link with
  | none => simp [hlink] at hreceive
  | some s =>
    simp only [hlink] at hreceive
    cases hreceive
    obtain ⟨k, horigin, hk⟩ := hrouted.wire s hlink _ (by rw [hwire]; exact mem_cons_self)
    have hkey : ∀ j, c.client.keyOf streamId = some j → j = k := by
      intro j hj
      have hbound := hrouted.bound s hlink streamId j (filter_eq_some_iff.mp hj).1
      exact some.inj (hbound.symm.trans hk)
    exact ⟨k, horigin, hkey, fun j hj => onDelta_watches hkey hj version ops⟩

def twoStreams : List Event :=
  [.connect "s" 0 none .null, .watchMany ["a", "b"] none] ++ List.replicate 10 (.task "s" 0) ++
  [.join "t" 0 none .null, .arrive "t" (Sessions.callFrame "state.set"
    [("state", .string "b"), ("value", .bool true)])] ++ List.replicate 4 (.task "t" 0) ++
  [.write "s", .write "s", .write "s", .receive, .receive]

theorem no_misrouted_delta_second : ∃ c c', run step (start .new) twoStreams = some c ∧
      step c .receive = some c' ∧ c'.client.watches.get? "a" = c.client.watches.get? "a" ∧
      c.client.keyOf 11 = some "b" := by
  obtain ⟨c, hc, c', hc', hwires, hkey⟩ : ∃ c ∈ run step (start .new) twoStreams,
      ∃ c' ∈ step c .receive, c.wire.map Prod.fst = [.delta 11 0 1 [.add "/" (.bool true)]] ∧
        c.client.keyOf 11 = some "b" := by
    decide +kernel
  simp only [map_eq_cons_iff, map_eq_nil_iff] at hwires
  obtain ⟨⟨-, _⟩, _, hwire, rfl, -⟩ := hwires
  obtain ⟨k, -, hkeys, hothers⟩ := no_misrouted_delta hc hwire hc'
  have hb : "b" = k := hkeys "b" hkey
  exact ⟨c, c', hc, hc', hothers "a" (hb ▸ by decide), hkey⟩

end Wires

end Sodp
