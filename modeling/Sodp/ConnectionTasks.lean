import Mathlib.Data.Fintype.Basic
import Sodp.Publish
import Sodp.Transition

/-!
# Connection tasks side by side

The handlers of different tasks interleave between their accesses to the store, the fanout
registry and the queues. A mutation is two atomic steps: the store call, and the broadcast of its
delta with the direct delivery to the own session. A WATCH subscribes, reads the entry and
enqueues STATE_INIT; a RESUME also replays the missed deltas between the first two.
-/

namespace Sodp
open Function Option SodpServer

/-- What makes a mutation: a CALL leaves its own session out of the broadcast and
delivers to it directly, the presence cleanup broadcasts to everyone. -/
inductive Source where
  | call
  | cleanup
deriving DecidableEq

def SodpServer.deliver (srv : SodpServer) (source : Source) (session : Session)
    (stateKey : String) (version : ℕ) (ops : List DeltaOp) : SodpServer :=
  match source with
  | .call => srv.publish session stateKey version ops
  | .cleanup => srv.broadcast stateKey version ops none

namespace SodpServer

variable {srv : SodpServer} {source : Source} {session : Session} {stateKey : String} {version : ℕ}
  {ops : List DeltaOp} {s : String}

theorem state_deliver (srv : SodpServer) (source : Source) (session : Session) (stateKey : String)
    (version : ℕ) (ops : List DeltaOp) :
    (srv.deliver source session stateKey version ops).state = srv.state := by
  cases source with
  | call => exact state_publish srv session stateKey version ops
  | cleanup => rfl

theorem deliver_cancelled (hc : (srv.handles s).cancelled = true) :
    ((srv.deliver source session stateKey version ops).handles s).cancelled = true := by
  cases source with
  | call => exact publish_cancelled hc
  | cleanup => exact broadcast_cancelled hc _

theorem deliver_of_open (hs : s ≠ session.id)
    (hopen : ((srv.deliver source session stateKey version ops).handles s).cancelled = false) :
    (∀ k, (srv.deliver source session stateKey version ops).fanout.streamsOf k s =
      srv.fanout.streamsOf k s) ∧ (srv.deliver source session stateKey version ops).handles s =
      (srv.handles s).push ((srv.fanout.streamsOf stateKey s).map fun sid =>
        .delta sid 0 version ops) := by
  cases source with
  | call =>
    obtain ⟨hstreams, hqueue⟩ := publish_of_open hopen
    rw [reached, if_neg hs] at hqueue
    exact ⟨hstreams, hqueue⟩
  | cleanup =>
    obtain ⟨hstreams, hqueue⟩ := broadcast_of_open hopen
    rw [if_neg (some_ne_none s).symm] at hqueue
    exact ⟨hstreams, hqueue⟩

end SodpServer

/-- Where a connection task stands between two atomic steps. A snapshot keeps the
store's counter of the moment it was read, which says what mutations it shows; the
source has no such field. -/
inductive Handler where
  | idle
  | publishing (source : Source) (stateKey : String) (version : ℕ) (ops : List DeltaOp)
  | replaying (streamId : ℕ) (stateKey : String) (sinceVersion : ℕ) (params : Option Value)
  | subscribed (streamId : ℕ) (stateKey : String) (params : Option Value)
  | snapshotted (streamId : ℕ) (stateKey : String) (params : Option Value)
      (entry : ℕ × Value × Bool) (readAt : ℕ)

def Handler.holding : Handler → Option (String × ℕ)
  | .publishing _ stateKey version _ => some (stateKey, version)
  | _ => none

def Handler.isIdle : Handler → Bool
  | .idle => true
  | _ => false

theorem Handler.eq_idle {h : Handler} (hidle : h.isIdle = true) : h = .idle := by
  cases h with
  | idle => rfl
  | _ => cases hidle

def Handler.readAt : Handler → Option ℕ
  | .snapshotted _ _ _ _ readAt => some readAt
  | _ => none

inductive Action where
  | mutate (source : Source) (call : StateStore.Call)
  | watch (stateKey : String) (params : Option Value)
  | resume (stateKey : String) (sinceVersion : ℕ) (params : Option Value)
  | proceed

def Action.isMutation : Action → Bool
  | .mutate _ _ => true
  | .proceed => true
  | _ => false

structure Tasks (ι : Type*) where
  server : SodpServer
  session : ι → Session
  handler : ι → Handler

namespace Tasks

variable {ι : Type*} [DecidableEq ι]

def moved (c : Tasks ι) (i : ι) (next : SodpServer × Session) (handler : Handler) : Tasks ι :=
  ⟨next.1, update c.session i next.2, update c.handler i handler⟩

def step (c : Tasks ι) (e : ι × Action) : Option (Tasks ι) :=
  let i := e.1
  let session := c.session i
  match c.handler i, e.2 with
  | .idle, .mutate source call =>
    let result := c.server.state.exec call
    let server := { c.server with state := result.1 }
    match result.2 with
    | none => some (c.moved i (server, session) .idle)
    | some (version, ops) =>
      some (c.moved i (server, session)
        (if ops.isEmpty then .idle else .publishing source call.key version ops))
  | .publishing source stateKey version ops, .proceed =>
    some (c.moved i (c.server.deliver source session stateKey version ops, session) .idle)
  | .idle, .watch stateKey params =>
    some (c.moved i (c.server.openStream session stateKey params)
      (.subscribed session.allocateStream.2 stateKey params))
  | .idle, .resume stateKey sinceVersion params =>
    some (c.moved i (c.server.openStream session stateKey params)
      (.replaying session.allocateStream.2 stateKey sinceVersion params))
  | .replaying streamId stateKey sinceVersion params, .proceed =>
    some (c.moved i (c.server.replayMissed session streamId stateKey sinceVersion)
      (.subscribed streamId stateKey params))
  | .subscribed streamId stateKey params, .proceed =>
    some (c.moved i (c.server, session)
      (.snapshotted streamId stateKey params (c.server.readEntry stateKey)
        c.server.state.globalVersion))
  | .snapshotted streamId stateKey params entry _, .proceed =>
    some (c.moved i (c.server.sendStateInit session streamId stateKey params entry) .idle)
  | _, _ => none

theorem moved_same_session (c : Tasks ι) (i : ι) (server : SodpServer) (handler : Handler) :
    (c.moved i (server, c.session i) handler).session = c.session :=
  update_eq_self i c.session

theorem moved_session_self (c : Tasks ι) (i : ι) (next : SodpServer × Session)
    (handler : Handler) : (c.moved i next handler).session i = next.2 :=
  update_self ..

variable {i j : ι} {c c' : Tasks ι}

theorem moved_session_of_ne (c : Tasks ι) (hj : j ≠ i) (next : SodpServer × Session)
    (handler : Handler) : (c.moved i next handler).session j = c.session j :=
  update_of_ne hj _ _

theorem moved_handler_self (c : Tasks ι) (i : ι) (next : SodpServer × Session)
    (handler : Handler) : (c.moved i next handler).handler i = handler :=
  update_self ..

theorem moved_handler_of_ne (c : Tasks ι) (hj : j ≠ i) (next : SodpServer × Session)
    (handler : Handler) : (c.moved i next handler).handler j = c.handler j :=
  update_of_ne hj _ _

theorem step_mutate {source : Source} {call : StateStore.Call}
    (h : step c (i, .mutate source call) = some c') : c.handler i = .idle ∧ ∃ handler,
      c' = c.moved i ({ c.server with state := (c.server.state.exec call).1 }, c.session i)
        handler ∧
      ((handler = .idle ∧ ((c.server.state.exec call).2 = none ∨
          ∃ version, (c.server.state.exec call).2 = some (version, []))) ∨
        ∃ version ops, (c.server.state.exec call).2 = some (version, ops) ∧
          handler = .publishing source call.key version ops) := by
  rw [step] at h
  cases hi : c.handler i with
  | idle =>
    refine ⟨rfl, ?_⟩
    simp only [hi] at h
    split at h
    case h_1 hnone => exact ⟨.idle, (some.inj h).symm, .inl ⟨rfl, .inl hnone⟩⟩
    case h_2 version ops hsome =>
      refine ⟨_, (some.inj h).symm, ?_⟩
      by_cases hops : ops = []
      · subst hops
        exact .inl ⟨rfl, .inr ⟨version, hsome⟩⟩
      · exact .inr ⟨version, ops, hsome, by simp [hops]⟩
  | _ => simp [hi] at h

theorem step_publish {source : Source} {stateKey : String} {version : ℕ} {ops : List DeltaOp}
    (hi : c.handler i = .publishing source stateKey version ops) {action : Action}
    (h : step c (i, action) = some c') : action = .proceed ∧ c' = c.moved i
      (c.server.deliver source (c.session i) stateKey version ops, c.session i) .idle := by
  rw [step] at h
  cases action with
  | proceed =>
    simp only [hi] at h
    exact ⟨rfl, (some.inj h).symm⟩
  | _ => simp [hi] at h

/-- A task publishes a delta only while no other one holds an older delta of the key. -/
def Turn (c : Tasks ι) (e : ι × Action) : Prop :=
  ∀ d ∈ (c.handler e.1).holding, ∀ j, j ≠ e.1 →
    ∀ d' ∈ (c.handler j).holding, d'.1 = d.1 → d.2 < d'.2

instance decidableTurn [Fintype ι] (c : Tasks ι) (e : ι × Action) : Decidable (Turn c e) := by
  unfold Turn
  infer_instance

def queue (c : Tasks ι) (i : ι) : List OutboundMsg := (c.server.handles (c.session i).id).queue

def IsOpen (c : Tasks ι) (i : ι) : Prop := (c.server.handles (c.session i).id).cancelled = false

theorem moved_isOpen {next : SodpServer × Session} {handler : Handler}
    (hid : next.2.id = (c.session i).id)
    (hcancelled : ∀ s, (c.server.handles s).cancelled = true → (next.1.handles s).cancelled = true)
    (h : (c.moved i next handler).IsOpen j) : c.IsOpen j := by
  have hsession : ((c.moved i next handler).session j).id = (c.session j).id := by
    by_cases hj : j = i
    · subst hj
      rw [moved_session_self, hid]
    · rw [moved_session_of_ne c hj]
  rw [IsOpen, hsession] at h
  rw [IsOpen]
  by_contra hc
  have hnext := hcancelled _ (by simpa using hc)
  change (next.1.handles _).cancelled = false at h
  rw [h] at hnext
  cases hnext

theorem step_isOpen {e : ι × Action} (h : step c e = some c') (hopen : c'.IsOpen j) :
    c.IsOpen j := by
  rw [step] at h
  split at h
  case h_1 =>
    dsimp only at h
    split at h
    · cases h
      exact moved_isOpen rfl (fun _ hc => hc) hopen
    · cases h
      exact moved_isOpen rfl (fun _ hc => hc) hopen
  case h_2 =>
    cases h
    exact moved_isOpen rfl (fun _ hc => deliver_cancelled hc) hopen
  case h_3 =>
    cases h
    exact moved_isOpen rfl (fun _ hc => hc) hopen
  case h_4 =>
    cases h
    exact moved_isOpen rfl (fun _ hc => hc) hopen
  case h_5 =>
    cases h
    refine moved_isOpen ?_ (fun _ hc => ?_) hopen
    · rw [replayMissed_eq]
      exact (replayAll_frame _ _ _).2.2.id
    · rw [replayMissed_eq]
      exact replayAll_cancelled hc
  case h_6 =>
    cases h
    exact moved_isOpen rfl (fun _ hc => hc) hopen
  case h_7 =>
    cases h
    exact moved_isOpen rfl (fun _ hc => reply_cancelled hc _) hopen
  case h_8 => cases h

end Tasks

end Sodp
