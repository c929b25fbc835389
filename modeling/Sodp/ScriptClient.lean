import Sodp.DeltaApply
import Sodp.Outbound

/-!
# The TypeScript client

`SodpClient` with the state that routes and stores updates. A frame handler that throws leaves this
state as it was, because `applyOps` works on a copy and `onmessage` catches the exception. Promises
and timers are left out. Stream ids are bound in increasing order, so the order of `streamToKey` is
that of the source; the watch table is visited in key order.
-/

namespace Sodp.Client

structure WatchEntry where
  version : ℕ
  value : JsValue
  initialized : Bool
  params : Option Value
  /-- the number of registered callbacks -/
  callbacks : ℕ

structure SodpClient where
  watches : OrderedMap String WatchEntry
  streamToKey : OrderedMap ℕ String
  authenticated : Bool
  nextStreamId : ℕ
  nextSeq : ℕ

namespace SodpClient

def new : SodpClient := ⟨.empty, .empty, false, 10, 0⟩

def setEntry (c : SodpClient) (key : String) (entry : WatchEntry) : SodpClient :=
  { c with watches := c.watches.insert key entry }

/-! ### Incoming frames -/

def onStateInit (c : SodpClient) (streamId : ℕ) (key : String) (version : ℕ) (value : JsValue)
    (initialized : Bool) : SodpClient :=
  match c.watches.get? key with
  | none => c
  | some entry =>
    setEntry { c with streamToKey := c.streamToKey.insert streamId key } key
      { entry with version := version, value := value, initialized := initialized }

def isDeleted (ops : List DeltaOp) : Bool := ops.any fun op => op.op = .remove ∧ op.path = "/"

/-- The key looked up for a stream. JavaScript treats an empty key as no key. -/
def keyOf (c : SodpClient) (streamId : ℕ) : Option String :=
  (c.streamToKey.get? streamId).filter fun key => key ≠ ""

def onDelta (c : SodpClient) (streamId version : ℕ) (ops : List DeltaOp) : SodpClient :=
  match c.keyOf streamId with
  | none => c
  | some key =>
    match c.watches.get? key with
    | none => c
    | some entry =>
      match applyOps entry.value ops with
      | .error _ => c
      | .ok value =>
        c.setEntry key
          { entry with value := value, version := version, initialized := ! isDeleted ops }

def handleFrame (c : SodpClient) : OutboundMsg → SodpClient
  | .stateInit streamId _ key version value initialized _ =>
    c.onStateInit streamId key version (.ofJson value) initialized
  | .delta streamId _ version ops => c.onDelta streamId version ops
  | .resultOk .. => c
  | .error .. => c
  | .heartbeat => c

def handleFrames (c : SodpClient) (msgs : List OutboundMsg) : SodpClient :=
  msgs.foldl handleFrame c

/-! ### Requests -/

def send (c : SodpClient) (frameType : FrameType) (streamId : ℕ) (body : Value) :
    SodpClient × Frame :=
  ({ c with nextSeq := c.nextSeq + 1 }, ⟨frameType, streamId, c.nextSeq + 1, body⟩)

def withParams (fields : List (String × Value)) (params : Option Value) : Value :=
  .ofFields (fields ++ params.toList.map fun p => ("params", p))

def sendWatch (c : SodpClient) (key : String) (params : Option Value) : SodpClient × Frame :=
  send { c with nextStreamId := c.nextStreamId + 1 } .watch c.nextStreamId
    (withParams [("state", .string key)] params)

def sendResume (c : SodpClient) (key : String) (sinceVersion : ℕ) (params : Option Value) :
    SodpClient × Frame :=
  send { c with nextStreamId := c.nextStreamId + 1 } .resume c.nextStreamId
    (withParams [("state", .string key), ("since_version", .number (.int sinceVersion))] params)

def register (c : SodpClient) (params : Option Value) (key : String) : SodpClient :=
  let entry := (c.watches.get? key).getD ⟨0, .null, false, params, 0⟩
  c.setEntry key { entry with callbacks := entry.callbacks + 1 }

def watch (c : SodpClient) (key : String) (params : Option Value) : SodpClient × List Frame :=
  if (c.watches.get? key).isNone ∧ c.authenticated then
    let (c, frame) := (c.register params key).sendWatch key params
    (c, [frame])
  else (c.register params key, [])

def watchMany (c : SodpClient) (keys : List String) (params : Option Value) :
    SodpClient × List Frame :=
  let c := keys.foldl (register · params) c
  if c.authenticated then
    let (c, frame) := send { c with nextStreamId := c.nextStreamId + 1 } .watch c.nextStreamId
      (withParams [("states", .array (keys.map .string))] params)
    (c, [frame])
  else (c, [])

def unsubscribe (c : SodpClient) (key : String) : SodpClient :=
  match c.watches.get? key with
  | none => c
  | some entry => c.setEntry key { entry with callbacks := entry.callbacks - 1 }

def unbind (c : SodpClient) (key : String) : SodpClient :=
  match c.streamToKey.toList.find? fun b => b.2 = key with
  | none => c
  | some b => { c with streamToKey := c.streamToKey.erase b.1 }

def unwatch (c : SodpClient) (key : String) : SodpClient × List Frame :=
  if (c.watches.get? key).isNone then (c, [])
  else
    let sent := if c.authenticated then
      let (c, frame) := c.send .unwatch 0 (.ofFields [("state", .string key)])
      (c, [frame])
    else (c, [])
    (unbind { sent.1 with watches := sent.1.watches.erase key } key, sent.2)

def call (c : SodpClient) (body : Value) : SodpClient × Frame := c.send .call 0 body

def onDisconnect (c : SodpClient) : SodpClient :=
  { c with authenticated := false, streamToKey := .empty, nextStreamId := 10, nextSeq := 0 }

def resubscribe (acc : SodpClient × List Frame) (watch : String × WatchEntry) :
    SodpClient × List Frame :=
  if watch.2.callbacks = 0 then acc
  else
    let (c, frame) := if 0 < watch.2.version then
      acc.1.sendResume watch.1 watch.2.version watch.2.params
    else acc.1.sendWatch watch.1 watch.2.params
    (c, acc.2 ++ [frame])

def onReady (c : SodpClient) : SodpClient × List Frame :=
  c.watches.toList.foldl resubscribe ({ c with authenticated := true }, [])

end SodpClient

end Sodp.Client
