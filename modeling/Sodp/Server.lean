import Sodp.Fanout
import Sodp.JsonEdit
import Sodp.Session
import Sodp.StateStore

/-!
# The frame handlers of the server

`server.rs` on one node without a cluster. The access rules and the schema are given by what they
decide. The five methods of a CALL check their arguments in different ways (`prepare`) and then all
do the same (`commit`): one mutation of the store, its delta to every other subscriber of the key
and to the calling session's own stream, and one RESULT.
-/

namespace Sodp

structure AclRegistry where
  canRead : String → Option String → Value → Bool
  canWrite : String → Option String → Value → Bool

structure SchemaRegistry where
  validate : String → Value → Except String Unit

structure SodpServer where
  state : StateStore
  fanout : FanoutBus
  handles : Handles
  schema : Option SchemaRegistry
  acl : Option AclRegistry
  rateWritesPerSec : Option ℕ
  rateWatchesPerSec : Option ℕ
  backpressureLimit : ℕ

namespace SodpServer

def defaultBackpressureLimit : ℕ := 1024

def new : SodpServer where
  state := .new
  fanout := .new
  handles := fun _ => ⟨[], defaultBackpressureLimit, false⟩
  schema := none
  acl := none
  rateWritesPerSec := none
  rateWatchesPerSec := none
  backpressureLimit := defaultBackpressureLimit

def send (srv : SodpServer) (sessionId : String) (msg : OutboundMsg) : SodpServer :=
  { srv with handles := (srv.handles.send sessionId msg).1 }

def reply (srv : SodpServer) (session : Session) (msg : ℕ → OutboundMsg) : SodpServer × Session :=
  (srv.send session.id (msg session.nextSeq.2), session.nextSeq.1)

def broadcast (srv : SodpServer) (stateKey : String) (version : ℕ) (ops : List DeltaOp)
    (exclude : Option String) : SodpServer :=
  let sent := srv.fanout.broadcastEncoded srv.handles stateKey version ops exclude
  { srv with fanout := sent.1, handles := sent.2 }

def canRead (srv : SodpServer) (session : Session) (stateKey : String) : Bool :=
  srv.acl.all fun acl => acl.canRead stateKey session.sub session.claims

def canWrite (srv : SodpServer) (session : Session) (stateKey : String) : Bool :=
  srv.acl.all fun acl => acl.canWrite stateKey session.sub session.claims

/-! ### WATCH, UNWATCH, RESUME -/

def openStream (srv : SodpServer) (session : Session) (stateKey : String) (params : Option Value) :
    SodpServer × Session :=
  let streamId := session.allocateStream.2
  ({ srv with fanout := srv.fanout.subscribe stateKey ⟨session.id, streamId⟩ },
    session.allocateStream.1.addWatch streamId stateKey params)

def readEntry (srv : SodpServer) (stateKey : String) : ℕ × Value × Bool :=
  match srv.state.get stateKey with
  | some e => (e.version, e.value, true)
  | none => (0, .null, false)

def sendStateInit (srv : SodpServer) (session : Session) (streamId : ℕ) (stateKey : String)
    (params : Option Value) (entry : ℕ × Value × Bool) : SodpServer × Session :=
  srv.reply session fun seq =>
    .stateInit streamId seq stateKey entry.1 entry.2.1 entry.2.2 params

def subscribeKey (srv : SodpServer) (session : Session) (stateKey : String)
    (params : Option Value) : SodpServer × Session :=
  let streamId := session.allocateStream.2
  let opened := srv.openStream session stateKey params
  opened.1.sendStateInit opened.2 streamId stateKey params (opened.1.readEntry stateKey)

/-- The keys a WATCH or UNWATCH names: `states` takes priority over `state`. -/
def requestedKeys (body : Value) : Option (List String) :=
  match (body.get? "states").bind Value.asArray with
  | some arr => some (arr.filterMap Value.asStr)
  | none => ((body.get? "state").bind Value.asStr).map fun k => [k]

def watchKey (params : Option Value) (acc : SodpServer × Session) (stateKey : String) :
    SodpServer × Session :=
  if acc.1.canRead acc.2 stateKey then acc.1.subscribeKey acc.2 stateKey params
  else acc.1.reply acc.2 fun seq => .error 0 seq 403 s!"forbidden: {stateKey}"

def handleWatch (srv : SodpServer) (session : Session) (frame : Frame) (now : ℕ) :
    SodpServer × Session :=
  let (session, allowed) := session.allowWatch now
  if ¬ allowed then
    srv.reply session fun seq => .error frame.streamId seq 429 "rate limit exceeded"
  else match requestedKeys frame.body with
    | none =>
      srv.reply session fun seq =>
        .error frame.streamId seq 400 "WATCH: missing 'state' or 'states' key"
    | some keys => keys.foldl (watchKey (frame.body.get? "params")) (srv, session)

def unwatchKey (acc : SodpServer × Session) (stateKey : String) : SodpServer × Session :=
  match acc.2.watchStreamId stateKey with
  | some streamId =>
    ({ acc.1 with fanout := acc.1.fanout.unsubscribe stateKey acc.2.id },
      acc.2.removeWatch streamId)
  | none => acc

def handleUnwatch (srv : SodpServer) (session : Session) (frame : Frame) : SodpServer × Session :=
  match requestedKeys frame.body with
  | none => (srv, session)
  | some keys => keys.foldl unwatchKey (srv, session)

def replayMissed (srv : SodpServer) (session : Session) (streamId : ℕ) (stateKey : String)
    (sinceVersion : ℕ) : SodpServer × Session :=
  if 0 < sinceVersion then
    (srv.state.deltasSince stateKey sinceVersion).foldl
      (fun acc d => acc.1.reply acc.2 fun seq => .delta streamId seq d.1 d.2) (srv, session)
  else (srv, session)

def resumeKey (srv : SodpServer) (session : Session) (stateKey : String) (sinceVersion : ℕ)
    (params : Option Value) : SodpServer × Session :=
  let streamId := session.allocateStream.2
  let opened := srv.openStream session stateKey params
  let replayed := opened.1.replayMissed opened.2 streamId stateKey sinceVersion
  replayed.1.sendStateInit replayed.2 streamId stateKey params (replayed.1.readEntry stateKey)

def handleResume (srv : SodpServer) (session : Session) (frame : Frame) (now : ℕ) :
    SodpServer × Session :=
  let (session, allowed) := session.allowWatch now
  if ¬ allowed then
    srv.reply session fun seq => .error frame.streamId seq 429 "rate limit exceeded"
  else match (frame.body.get? "state").bind Value.asStr with
    | none =>
      srv.reply session fun seq => .error frame.streamId seq 400 "RESUME: missing 'state' key"
    | some stateKey =>
      if ¬ srv.canRead session stateKey then
        srv.reply session fun seq => .error frame.streamId seq 403 "forbidden"
      else
        srv.resumeKey session stateKey
          (((frame.body.get? "since_version").bind Value.asU64).getD 0) (frame.body.get? "params")

/-! ### CALL -/

inductive Method where
  | set
  | patch
  | setIn
  | delete
  | presence
  | unknown (name : String)
deriving DecidableEq

def Method.ofName (name : String) : Method :=
  if name = "state.set" then .set
  else if name = "state.patch" then .patch
  else if name = "state.set_in" then .setIn
  else if name = "state.delete" then .delete
  else if name = "state.presence" then .presence
  else .unknown name

abbrev Refusal := ℕ × String

/-- What an accepted call does: one mutation, and for `state.presence` a path to own. -/
structure Request where
  call : StateStore.Call
  presence : Option PresenceEntry

def stateArg (args : Value) (ctx : String) : Except Refusal String :=
  match (args.get? "state").bind Value.asStr with
  | some stateKey => .ok stateKey
  | none => .error (400, s!"{ctx}: missing 'state' key")

def pathArg (args : Value) (ctx : String) : Except Refusal String :=
  match (args.get? "path").bind Value.asStr with
  | some path => .ok path
  | none => .error (400, s!"{ctx}: missing 'path' key")

def patchArg (args : Value) : Except Refusal Value :=
  match args.get? "patch" with
  | some p => if p.isObject then .ok p else .error (400, "state.patch: 'patch' must be an object")
  | none => .error (400, "state.patch: 'patch' must be an object")

def valueArg (args : Value) : Value := (args.get? "value").getD .null

def validated (srv : SodpServer) (stateKey : String) (value : Value) : Except Refusal Value :=
  match srv.schema with
  | none => .ok value
  | some schema =>
    match schema.validate stateKey value with
    | .ok _ => .ok value
    | .error msg => .error (422, msg)

def setInArg (srv : SodpServer) (args : Value) (stateKey path : String) : Except Refusal Value :=
  match jsonSetIn (srv.state.valueOf stateKey) path (valueArg args) with
  | .error msg => .error (400, msg)
  | .ok updated => srv.validated stateKey updated

def prepare (srv : SodpServer) (args : Value) : Method → Except Refusal Request
  | .set => do
    let stateKey ← stateArg args "state.set"
    let newValue ← srv.validated stateKey (valueArg args)
    return ⟨.apply stateKey newValue, none⟩
  | .patch => do
    let stateKey ← stateArg args "state.patch"
    let patch ← patchArg args
    let current := ((srv.state.get stateKey).map StateEntry.value).getD (.object .empty)
    let merged ← srv.validated stateKey (jsonMerge current patch)
    return ⟨.apply stateKey merged, none⟩
  | .setIn => do
    let stateKey ← stateArg args "state.set_in"
    let path ← pathArg args "state.set_in"
    let updated ← srv.setInArg args stateKey path
    return ⟨.apply stateKey updated, none⟩
  | .delete => do
    let stateKey ← stateArg args "state.delete"
    return ⟨.delete stateKey, none⟩
  | .presence => do
    let stateKey ← stateArg args "state.presence"
    let path ← pathArg args "state.presence"
    let updated ← srv.setInArg args stateKey path
    return ⟨.apply stateKey updated, some ⟨stateKey, path⟩⟩
  | .unknown name => .error (404, s!"unknown method: {name}")

/-- Fan out to every other session and deliver directly to the calling one. -/
def publish (srv : SodpServer) (session : Session) (stateKey : String) (version : ℕ)
    (ops : List DeltaOp) : SodpServer :=
  let srv := srv.broadcast stateKey version ops (some session.id)
  match session.watchStreamId stateKey with
  | some streamId => srv.send session.id (.delta streamId 0 version ops)
  | none => srv

/-- The mutation of a call with its deltas; the version its RESULT reports. A delete
always has an op, so only an `apply` can be without one. -/
def commit (srv : SodpServer) (session : Session) (call : StateStore.Call) : SodpServer × ℕ :=
  let srv' := { srv with state := (srv.state.exec call).1 }
  match (srv.state.exec call).2 with
  | none => (srv', 0)
  | some (version, ops) =>
    (if ops.isEmpty then srv' else srv'.publish session call.key version ops, version)

def own (session : Session) : Option PresenceEntry → Session
  | some entry => session.addPresence entry.stateKey entry.path
  | none => session

def versionData (version : ℕ) : Value := .ofFields [("version", .number (.int version))]

def handleMethod (srv : SodpServer) (session : Session) (frame : Frame) (callId : String)
    (method : Method) (args : Value) : SodpServer × Session :=
  match srv.prepare args method with
  | .error (code, msg) => srv.reply session fun seq => .error frame.streamId seq code msg
  | .ok request =>
    let (srv, version) := srv.commit session request.call
    srv.reply (own session request.presence) fun seq =>
      .resultOk frame.streamId seq callId (versionData version)

def handleCall (srv : SodpServer) (session : Session) (frame : Frame) (now : ℕ) :
    SodpServer × Session :=
  let callId := ((frame.body.get? "call_id").bind Value.asStr).getD "unknown"
  match (frame.body.get? "method").bind Value.asStr with
  | none => srv.reply session fun seq => .error frame.streamId seq 400 "CALL: missing 'method'"
  | some name =>
    let args := (frame.body.get? "args").getD .null
    let (session, allowed) := session.allowWrite now
    if ¬ allowed then
      srv.reply session fun seq => .error frame.streamId seq 429 "rate limit exceeded"
    else if ((args.get? "state").bind Value.asStr).any fun k => ! srv.canWrite session k then
      srv.reply session fun seq => .error frame.streamId seq 403 "forbidden"
    else srv.handleMethod session frame callId (Method.ofName name) args

def handleFrame (srv : SodpServer) (session : Session) (frame : Frame) (now : ℕ) :
    SodpServer × Session :=
  match frame.frameType with
  | .watch => srv.handleWatch session frame now
  | .resume => srv.handleResume session frame now
  | .unwatch => srv.handleUnwatch session frame
  | .call => srv.handleCall session frame now
  | .ack =>
    (srv, session.ackStream frame.streamId (((frame.body.get? "seq").bind Value.asU64).getD 0))
  | .heartbeat => (srv.send session.id .heartbeat, session)
  | _ => (srv, session)

/-! ### The end of a connection -/

def cleanup (srv : SodpServer) (entry : PresenceEntry) : SodpServer :=
  match srv.state.get entry.stateKey with
  | none => srv
  | some e =>
    let applied := srv.state.apply entry.stateKey (jsonRemoveIn e.value entry.path)
    let srv := { srv with state := applied.1 }
    if applied.2.2.isEmpty then srv
    else srv.broadcast entry.stateKey applied.2.1 applied.2.2 none

def endSession (srv : SodpServer) (session : Session) : SodpServer :=
  let srv := session.presence.foldl cleanup srv
  { srv with fanout := srv.fanout.removeSession session.id }

def accept (srv : SodpServer) (sessionId : String) (now : ℕ) : SodpServer × Session :=
  ({ srv with handles :=
      Function.update srv.handles sessionId ⟨[], srv.backpressureLimit, false⟩ },
    .new sessionId now srv.rateWritesPerSec srv.rateWatchesPerSec)

end SodpServer

end Sodp
