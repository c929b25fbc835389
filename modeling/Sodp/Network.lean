import Sodp.ScriptClient
import Sodp.Server

/-!
# A server and its clients

Any number of clients of one server, each event handled to completion before the next. The frames
of the server wait in the queue of the session, and the client receives them one by one. After the
handshake the client resumes what it watched, and the calls it queued while offline follow.
-/

namespace Sodp
open Client

structure Peer where
  client : SodpClient
  session : Option Session

structure Network (ι : Type*) where
  server : SodpServer
  peer : ι → Peer

namespace Network

inductive Input where
  | connect (sessionId : String) (sub : Option String) (claims : Value)
  | watch (key : String) (params : Option Value)
  | watchMany (keys : List String) (params : Option Value)
  | unsubscribe (key : String)
  | unwatch (key : String)
  | call (body : Value)
  | receive
  | disconnect

structure Event (ι : Type*) where
  peer : ι
  now : ℕ
  input : Input

variable {ι : Type*}

def handleFrames (now : ℕ) (acc : SodpServer × Session) (frames : List Frame) :
    SodpServer × Session :=
  frames.foldl (fun acc frame => acc.1.handleFrame acc.2 frame now) acc

def settled (net : Network ι) (i : ι) : SodpClient :=
  match (net.peer i).session with
  | none => (net.peer i).client
  | some session => (net.peer i).client.handleFrames (net.server.handles session.id).queue

variable [DecidableEq ι]

def setPeer (net : Network ι) (i : ι) (server : SodpServer) (peer : Peer) : Network ι :=
  ⟨server, Function.update net.peer i peer⟩

def exchange (net : Network ι) (i : ι) (now : ℕ) (sent : SodpClient × List Frame) : Network ι :=
  match (net.peer i).session with
  | none => net.setPeer i net.server ⟨sent.1, none⟩
  | some session =>
    let handled := handleFrames now (net.server, session) sent.2
    net.setPeer i handled.1 ⟨sent.1, some handled.2⟩

def dequeue (server : SodpServer) (sessionId : String) : SodpServer :=
  let handle := server.handles sessionId
  { server with handles :=
      Function.update server.handles sessionId { handle with queue := handle.queue.tail } }

def join (net : Network ι) (i : ι) (now : ℕ) (sessionId : String) (sub : Option String)
    (claims : Value) : Network ι :=
  let accepted := net.server.accept sessionId now
  net.setPeer i accepted.1
    ⟨{ (net.peer i).client with authenticated := true },
      some { accepted.2 with sub := sub, claims := claims }⟩

def step (net : Network ι) (e : Event ι) : Option (Network ι) :=
  let client := (net.peer e.peer).client
  match e.input, (net.peer e.peer).session with
  | .connect sessionId sub claims, none =>
    let net := net.join e.peer e.now sessionId sub claims
    some (net.exchange e.peer e.now (net.peer e.peer).client.onReady)
  | .watch key params, _ => some (net.exchange e.peer e.now (client.watch key params))
  | .watchMany keys params, _ => some (net.exchange e.peer e.now (client.watchMany keys params))
  | .unsubscribe key, _ => some (net.exchange e.peer e.now (client.unsubscribe key, []))
  | .unwatch key, _ => some (net.exchange e.peer e.now (client.unwatch key))
  | .call body, some _ =>
    some (net.exchange e.peer e.now ((client.call body).1, [(client.call body).2]))
  | .receive, some session =>
    match (net.server.handles session.id).queue with
    | [] => none
    | msg :: _ =>
      some (net.setPeer e.peer (dequeue net.server session.id)
        ⟨client.handleFrame msg, some session⟩)
  | .disconnect, some session =>
    some (net.setPeer e.peer (net.server.endSession session) ⟨client.onDisconnect, none⟩)
  | _, _ => none

end Network

end Sodp
