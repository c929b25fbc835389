import Sodp.HandlerEffects
import Sodp.ScriptClient

/-!
# A client and its connections, step by step

Each connection is served by a task that takes one frame after the other. Between two accesses to
the store, the registry or a queue the task can be interrupted by any other one, so one event is
one step of one task. A broadcast takes its snapshot of the subscribers in one step and sends to
each of them in a step of its own.

One TypeScript client is part of the system, with the frames on their way in both directions,
through any number of connections one after the other; one that it has lost may still be served.
The other connections belong to anyone and may send any frames. With every message in a queue the
model keeps where it comes from. A connection opens fewer than `2 ^ 32` streams.
-/

namespace Sodp
open StateStore Client Function

/-- Why a message was sent: a change of a key, or the handling of a frame. -/
inductive Origin where
  | change (stateKey : String)
  | answer (frame : Frame)

structure Change where
  stateKey : String
  version : ℕ
  ops : List DeltaOp

inductive AfterPublish where
  | answer (frame : Frame) (presence : Option PresenceEntry)
  | clean (entries : List PresenceEntry)

inductive TaskStage where
  | idle
  | echoing
  | opening (frame : Frame) (requests : List (String × ℕ))
  | opened (frame : Frame) (streamId : ℕ) (stateKey : String) (sinceVersion : ℕ)
      (rest : List (String × ℕ))
  | replaying (frame : Frame) (streamId : ℕ) (stateKey : String)
      (missed : List (ℕ × List DeltaOp)) (rest : List (String × ℕ))
  | snapshotted (frame : Frame) (streamId : ℕ) (stateKey : String) (entry : ℕ × Value × Bool)
      (rest : List (String × ℕ))
  | closing (keys : List String)
  | accepted (frame : Frame) (request : SodpServer.Request)
  | publishing (change : Change) (next : AfterPublish)
  | sending (change : Change) (targets : List Subscriber) (slow : List String)
      (next : AfterPublish)
  | delivering (change : Change) (frame : Frame) (presence : Option PresenceEntry)
  | answering (frame : Frame) (presence : Option PresenceEntry) (version : ℕ)
  | cleaning (entries : List PresenceEntry)
  | ended

structure Connection where
  session : Session
  inbound : List Frame
  stage : TaskStage

/-- The server with its connections, and one client. -/
structure Wires where
  server : SodpServer
  connection : String → Option Connection
  /-- where the messages of a queue come from, in the order of the queue -/
  origins : String → List Origin
  client : SodpClient
  /-- the client's current connection -/
  link : Option String
  /-- messages that have left the queue and not yet reached the client -/
  wire : List (OutboundMsg × Origin)

namespace SodpServer

def takeFrame (srv : SodpServer) (session : Session) (frame : Frame) (now : ℕ) :
    Session × Except Refusal TaskStage :=
  match frame.frameType with
  | .watch =>
    let (session, allowed) := session.allowWatch now
    (session, if ¬ allowed then .error (429, "rate limit exceeded")
      else match requestedKeys frame.body with
        | none => .error (400, "WATCH: missing 'state' or 'states' key")
        | some keys => .ok (.opening frame (keys.map fun k => (k, 0))))
  | .resume =>
    let (session, allowed) := session.allowWatch now
    (session, if ¬ allowed then .error (429, "rate limit exceeded")
      else match (frame.body.get? "state").bind Value.asStr with
        | none => .error (400, "RESUME: missing 'state' key")
        | some k => .ok (.opening frame
            [(k, ((frame.body.get? "since_version").bind Value.asU64).getD 0)]))
  | .unwatch => (session, .ok (.closing ((requestedKeys frame.body).getD [])))
  | .call =>
    match (frame.body.get? "method").bind Value.asStr with
    | none => (session, .error (400, "CALL: missing 'method'"))
    | some name =>
      let args := (frame.body.get? "args").getD .null
      let (session, allowed) := session.allowWrite now
      (session, if ¬ allowed then .error (429, "rate limit exceeded")
        else if ((args.get? "state").bind Value.asStr).any fun k => ! srv.canWrite session k then
          .error (403, "forbidden")
        else (srv.prepare args (Method.ofName name)).map (.accepted frame))
  | .ack =>
    (session.ackStream frame.streamId (((frame.body.get? "seq").bind Value.asU64).getD 0),
      .ok .idle)
  | .heartbeat => (session, .ok .echoing)
  | _ => (session, .ok .idle)

def Starts (frame : Frame) : TaskStage → Prop
  | .idle | .echoing | .closing _ => frame.frameType ≠ .call
  | .opening asked _ => asked = frame ∧ frame.frameType ≠ .call
  | .accepted asked _ => asked = frame ∧ frame.frameType = .call
  | _ => False

theorem starts_takeFrame {srv : SodpServer} {session : Session} {frame : Frame} {now : ℕ}
    {stage : TaskStage} (h : (srv.takeFrame session frame now).2 = .ok stage) :
    Starts frame stage := by
  rw [takeFrame] at h
  split at h
  · next htype =>
    dsimp only at h
    split_ifs at h
    split at h
    · cases h
    · cases h
      exact ⟨rfl, by simp [htype]⟩
  · next htype =>
    dsimp only at h
    split_ifs at h
    split at h
    · cases h
    · cases h
      exact ⟨rfl, by simp [htype]⟩
  · next htype =>
    cases h
    simp [Starts, htype]
  · next htype =>
    split at h
    · cases h
    · next name _ =>
      dsimp only at h
      split_ifs at h
      cases hprepare : srv.prepare ((frame.body.get? "args").getD .null) (Method.ofName name) with
      | error => simp [hprepare, Except.map] at h
      | ok =>
        rw [hprepare] at h
        cases h
        exact ⟨rfl, htype⟩
  · next htype =>
    cases h
    simp [Starts, htype]
  · next htype =>
    cases h
    simp [Starts, htype]
  · next hother _ _ =>
    cases h
    exact hother

def forbidden (frame : Frame) (stateKey : String) (seq : ℕ) : OutboundMsg :=
  if frame.frameType = .resume then .error frame.streamId seq 403 "forbidden"
  else .error 0 seq 403 s!"forbidden: {stateKey}"

def callIdOf (frame : Frame) : String :=
  ((frame.body.get? "call_id").bind Value.asStr).getD "unknown"

end SodpServer

namespace Wires
open SodpServer

def put (c : Wires) (s : String) (conn : Connection) : Wires :=
  { c with connection := update c.connection s (some conn) }

theorem connection_put (c : Wires) (s s' : String) (conn : Connection) :
    (c.put s conn).connection s' = if s' = s then some conn else c.connection s' :=
  update_apply ..

def send (c : Wires) (s : String) (msg : OutboundMsg) (origin : Origin) : Wires :=
  { c with
    server := c.server.send s msg
    origins := if (c.server.handles s).queue.length < (c.server.handles s).capacity
      then update c.origins s (c.origins s ++ [origin]) else c.origins }

def reply (c : Wires) (s : String) (conn : Connection) (origin : Origin) (msg : ℕ → OutboundMsg)
    (stage : TaskStage) : Wires :=
  (c.send s (msg conn.session.nextSeq.2) origin).put s
    { conn with session := conn.session.nextSeq.1, stage := stage }

def mutate (c : Wires) (s : String) (conn : Connection) (call : Call)
    (changed : Change → TaskStage) (unchanged : ℕ → TaskStage) : Wires :=
  let result := c.server.state.exec call
  let c := { c with server := { c.server with state := result.1 } }
  match result.2 with
  | none => c.put s { conn with stage := unchanged 0 }
  | some (version, ops) =>
    c.put s { conn with
      stage := if ops.isEmpty then unchanged version else changed ⟨call.key, version, ops⟩ }

def advance (c : Wires) (s : String) (now : ℕ) (conn : Connection) : Option Wires :=
  let session := conn.session
  match conn.stage with
  | .idle =>
    match conn.inbound with
    | [] => none
    | frame :: inbound =>
      let taken := c.server.takeFrame session frame now
      let conn := { conn with session := taken.1, inbound := inbound }
      match taken.2 with
      | .error (code, msg) =>
        some (c.reply s conn (.answer frame) (fun seq => .error frame.streamId seq code msg) .idle)
      | .ok stage => some (c.put s { conn with stage := stage })
  | .echoing => some ((c.send s .heartbeat (.answer ⟨.heartbeat, 0, 0, .null⟩)).put s
      { conn with stage := .idle })
  | .opening _ [] => some (c.put s { conn with stage := .idle })
  | .opening frame ((stateKey, sinceVersion) :: rest) =>
    if c.server.canRead session stateKey then
      let opened := c.server.openStream session stateKey (frame.body.get? "params")
      some ({ c with server := opened.1 }.put s { conn with
        session := opened.2
        stage := .opened frame session.allocateStream.2 stateKey sinceVersion rest })
    else
      some (c.reply s conn (.answer frame) (forbidden frame stateKey) (.opening frame rest))
  | .opened frame streamId stateKey sinceVersion rest =>
    some (c.put s { conn with
      stage := .replaying frame streamId stateKey (c.server.missedBy stateKey sinceVersion) rest })
  | .replaying frame streamId stateKey (d :: missed) rest =>
    some (c.reply s conn (.change stateKey) (fun seq => .delta streamId seq d.1 d.2)
      (.replaying frame streamId stateKey missed rest))
  | .replaying frame streamId stateKey [] rest =>
    some (c.put s { conn with
      stage := .snapshotted frame streamId stateKey (c.server.readEntry stateKey) rest })
  | .snapshotted frame streamId stateKey entry rest =>
    some (c.reply s conn (.answer frame)
      (fun seq => .stateInit streamId seq stateKey entry.1 entry.2.1 entry.2.2
        (frame.body.get? "params"))
      (.opening frame rest))
  | .closing [] => some (c.put s { conn with stage := .idle })
  | .closing (stateKey :: keys) =>
    let closed := unwatchKey (c.server, session) stateKey
    some ({ c with server := closed.1 }.put s { conn with
      session := closed.2
      stage := .closing keys })
  | .accepted frame request =>
    some (c.mutate s conn request.call
      (fun change => .publishing change (.answer frame request.presence))
      (.answering frame request.presence))
  | .publishing change next =>
    let exclude := match next with
      | .answer .. => some session.id
      | .clean _ => none
    some (c.put s { conn with
      stage := .sending change (c.server.fanout.snapshot change.stateKey exclude) [] next })
  | .sending change (target :: targets) slow next =>
    let msg := OutboundMsg.delta target.streamId 0 change.version change.ops
    let sent := (c.server.handles.send target.sessionId msg).2
    some ((c.send target.sessionId msg (.change change.stateKey)).put s { conn with
      stage := .sending change targets (if sent then slow else slow ++ [target.sessionId]) next })
  | .sending change [] slow next =>
    let fanout := if slow.isEmpty then c.server.fanout
      else c.server.fanout.retain change.stateKey fun t => t.sessionId ∉ slow
    some ({ c with server := { c.server with fanout := fanout } }.put s { conn with
      stage := match next with
        | .answer frame presence => .delivering change frame presence
        | .clean entries => .cleaning entries })
  | .delivering change frame presence =>
    let c := match session.watchStreamId change.stateKey with
      | some streamId =>
        c.send s (.delta streamId 0 change.version change.ops) (.change change.stateKey)
      | none => c
    some (c.put s { conn with stage := .answering frame presence change.version })
  | .answering frame presence version =>
    some (c.reply s { conn with session := own session presence } (.answer frame)
      (fun seq => .resultOk frame.streamId seq (callIdOf frame) (versionData version)) .idle)
  | .cleaning [] =>
    some ({ c with server := { c.server with
      fanout := c.server.fanout.removeSession s } }.put s { conn with stage := .ended })
  | .cleaning (entry :: entries) =>
    match c.server.state.get entry.stateKey with
    | none => some (c.put s { conn with stage := .cleaning entries })
    | some e =>
      some (c.mutate s conn (cleanupCall entry e)
        (fun change => .publishing change (.clean entries))
        (fun _ => .cleaning entries))
  | .ended => none

def exchange (c : Wires) (sent : SodpClient × List Frame) : Wires :=
  let c := { c with client := sent.1 }
  match c.link with
  | none => c
  | some s =>
    match c.connection s with
    | none => c
    | some conn => c.put s { conn with inbound := conn.inbound ++ sent.2 }

def accept (c : Wires) (s : String) (now : ℕ) (sub : Option String) (claims : Value) : Wires :=
  let accepted := c.server.accept s now
  { c with server := accepted.1, origins := update c.origins s [] }.put s
    ⟨{ accepted.2 with sub := sub, claims := claims }, [], .idle⟩

inductive Event where
  | task (s : String) (now : ℕ)
  | close (s : String)
  | join (s : String) (now : ℕ) (sub : Option String) (claims : Value)
  | arrive (s : String) (frame : Frame)
  | write (s : String)
  | connect (s : String) (now : ℕ) (sub : Option String) (claims : Value)
  | watch (key : String) (params : Option Value)
  | watchMany (keys : List String) (params : Option Value)
  | unsubscribe (key : String)
  | unwatch (key : String)
  | call (body : Value)
  | receive
  | lose

def step (c : Wires) : Event → Option Wires
  | .task s now =>
    match c.connection s with
    | none => none
    | some conn => c.advance s now conn
  | .close s =>
    match c.connection s with
    | some ⟨session, _, .idle⟩ => some (c.put s ⟨session, [], .cleaning session.presence⟩)
    | _ => none
  | .join s now sub claims =>
    match c.connection s with
    | none => some (c.accept s now sub claims)
    | some _ => none
  | .arrive s frame =>
    match c.connection s with
    | some conn =>
      if c.link = some s then none
      else some (c.put s { conn with inbound := conn.inbound ++ [frame] })
    | none => none
  | .write s =>
    match (c.server.handles s).queue, c.origins s with
    | msg :: queue, origin :: origins =>
      some { c with
        server := { c.server with
          handles := update c.server.handles s { c.server.handles s with queue := queue } }
        origins := update c.origins s origins
        wire := if c.link = some s then c.wire ++ [(msg, origin)] else c.wire }
    | _, _ => none
  | .connect s now sub claims =>
    match c.link, c.connection s with
    | none, none =>
      let c := { c.accept s now sub claims with link := some s, wire := [] }
      some (c.exchange c.client.onReady)
    | _, _ => none
  | .watch key params => some (c.exchange (c.client.watch key params))
  | .watchMany keys params => some (c.exchange (c.client.watchMany keys params))
  | .unsubscribe key => some (c.exchange (c.client.unsubscribe key, []))
  | .unwatch key => some (c.exchange (c.client.unwatch key))
  | .call body => some (c.exchange ((c.client.call body).1, [(c.client.call body).2]))
  | .receive =>
    match c.link, c.wire with
    | some _, (msg, _) :: wire => some { c with client := c.client.handleFrame msg, wire := wire }
    | _, _ => none
  | .lose =>
    match c.link with
    | none => none
    | some _ => some { c with client := c.client.onDisconnect, link := none, wire := [] }

def start (server : SodpServer) : Wires where
  server := { server with
    fanout := .new
    handles := fun _ => ⟨[], server.backpressureLimit, false⟩ }
  connection := fun _ => none
  origins := fun _ => []
  client := .new
  link := none
  wire := []

end Wires

end Sodp
