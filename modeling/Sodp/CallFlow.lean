import Sodp.ClientRequests
import Sodp.ConnectionSteps
import Sodp.SessionRuns

/-!
# Calls and the frames that answer them

The promises of the client on one connection that is never lost. RESULT names the call it answers.
ERROR names none, and the client rejects the oldest pending call on every ERROR. A step of a task
enqueues at most one message, and a message to another session is a DELTA. The answers that it
sends are taken from the front of the calls that wait for one.
-/

namespace Sodp
open StateStore Client SodpServer Function List Option

structure Settlement where
  callId : String
  resolved : Bool
  origin : Origin

/-- The system, with the promises of the client. `applied` are the calls that the server has
executed, `issued` the ids that `randomUUID` has given out. -/
structure Calls where
  wires : Wires
  pending : List String
  settled : List Settlement
  applied : List String
  issued : List String

variable {origin : Origin} {server : SodpServer}

namespace Wires

def flight (c : Wires) (s : String) : List (OutboundMsg × Origin) :=
  c.wire ++ (c.server.handles s).queue.zip (c.origins s)

structure Told (s : String) (sent : List (OutboundMsg × Origin)) (c c' : Wires) : Prop where
  flight : c'.flight s = c.flight s ++ sent
  aligned : (c.origins s).length = (c.server.handles s).queue.length →
    (c'.origins s).length = (c'.server.handles s).queue.length
  link : c'.link = c.link

variable {s t : String} {c c' c'' : Wires}

theorem Told.trans {sent more : List (OutboundMsg × Origin)} (h : Told s sent c c')
    (h' : Told s more c' c'') : Told s (sent ++ more) c c'' where
  flight := by rw [h'.flight, h.flight, append_assoc]
  aligned := fun h₀ => h'.aligned (h.aligned h₀)
  link := h'.link.trans h.link

theorem told_put (c : Wires) (t : String) (conn : Connection) : Told s [] c (c.put t conn) :=
  ⟨(append_nil _).symm, id, rfl⟩

theorem told_withServer (h : server.handles = c.server.handles) :
    Told s [] c { c with server := server } := by
  refine ⟨?_, ?_, rfl⟩
  · rw [flight, flight, append_nil, h]
  · rw [h]
    exact id

theorem told_send {msg : OutboundMsg}
    (haligned : (c.origins s).length = (c.server.handles s).queue.length)
    (hopen : ((c.send t msg origin).server.handles s).cancelled = false) :
    Told s (if t = s then [(msg, origin)] else []) c (c.send t msg origin) := by
  by_cases ht : t = s
  · subst ht
    have hsent : (c.send t msg origin).server.handles t = (c.server.handles t).push [msg] := by
      have hself : (c.send t msg origin).server.handles t = ((c.server.handles t).send msg).1 :=
        Handles.send_self ..
      rw [hself] at hopen ⊢
      rw [WriteHandle.send_of_open hopen]
    have hroom : (c.server.handles t).queue.length < (c.server.handles t).capacity := by
      have hself : (c.send t msg origin).server.handles t = ((c.server.handles t).send msg).1 :=
        Handles.send_self ..
      rw [hself, WriteHandle.send] at hopen
      by_contra hfull
      rw [if_neg hfull] at hopen
      cases hopen
    have horigins : (c.send t msg origin).origins t = c.origins t ++ [origin] := by
      rw [Wires.send]
      dsimp only
      rw [if_pos hroom, update_self]
    rw [if_pos rfl]
    refine ⟨?_, fun _ => ?_, rfl⟩
    · rw [flight, hsent, horigins, WriteHandle.queue_push, zip_append haligned.symm, ← append_assoc]
      rfl
    · rw [hsent, horigins, WriteHandle.queue_push, length_append, length_append, haligned]
      rfl
  · have hqueue : (c.send t msg origin).server.handles s = c.server.handles s :=
      Handles.send_of_ne _ (Ne.symm ht) _
    have horigins : (c.send t msg origin).origins s = c.origins s := by
      rw [Wires.send]
      split_ifs
      · exact update_of_ne (Ne.symm ht) _ _
      · rfl
    rw [if_neg ht]
    refine ⟨?_, ?_, rfl⟩
    · rw [flight, flight, hqueue, horigins, append_nil]
      rfl
    · rw [hqueue, horigins]
      exact id

end Wires

namespace Calls

def onResult (c : Calls) (callId : String) (origin : Origin) : Calls :=
  if callId ∈ c.pending then
    { c with
      pending := c.pending.erase callId
      settled := c.settled ++ [⟨callId, true, origin⟩] }
  else c

def onError (c : Calls) (origin : Origin) : Calls :=
  match c.pending with
  | [] => c
  | callId :: pending =>
    { c with
      pending := pending
      settled := c.settled ++ [⟨callId, false, origin⟩] }

def onMessage (c : Calls) : OutboundMsg × Origin → Calls
  | (.resultOk _ _ callId _, origin) => c.onResult callId origin
  | (.error .., origin) => c.onError origin
  | _ => c

def callBody (callId method : String) (args : Value) : Value :=
  .ofFields [("call_id", .string callId), ("method", .string method), ("args", args)]

def executed : TaskStage → List String
  | .accepted frame _ => [callIdOf frame]
  | _ => []

inductive Event where
  | call (callId method : String) (args : Value)
  | other (e : Wires.Event)

def step (s : String) (c : Calls) : Event → Option Calls
  | .call callId method args =>
    if callId ∈ c.issued then none
    else (c.wires.step (.call (callBody callId method args))).map fun wires =>
      { c with
        wires := wires
        pending := c.pending ++ [callId]
        issued := callId :: c.issued }
  | .other e =>
    match e with
    | .call _ | .lose | .connect .. => none
    | .close t => if t = s then none else (c.wires.step (.close t)).map fun wires =>
        { c with wires := wires }
    | .receive => (c.wires.step .receive).map fun wires =>
        { c.wires.wire.head?.elim c c.onMessage with wires := wires }
    | .task t now => (c.wires.step (.task t now)).bind fun wires =>
        if (wires.server.handles s).cancelled then none
        else some { c with
          wires := wires
          applied := if t = s
            then c.applied ++ (c.wires.connection s).elim [] fun conn => executed conn.stage
            else c.applied }
    | e => (c.wires.step e).map fun wires => { c with wires := wires }

def start (server : SodpServer) (s : String) (now : ℕ) (sub : Option String) (claims : Value) :
    Option Calls :=
  ((Wires.start server).step (.connect s now sub claims)).map fun wires => ⟨wires, [], [], [], []⟩

/-! ### The calls that are not answered yet -/

def answerId : OutboundMsg × Origin → Option String
  | (.resultOk _ _ callId _, _) => some callId
  | (.error .., .answer frame) => if frame.frameType = .call then some (callIdOf frame) else none
  | _ => none

def callOf : TaskStage → Option Frame
  | .accepted frame _ => some frame
  | .publishing _ (.answer frame _) => some frame
  | .sending _ _ _ (.answer frame _) => some frame
  | .delivering _ frame _ => some frame
  | .answering frame _ _ => some frame
  | _ => none

def isCall (frame : Frame) : Bool := frame.frameType = .call

def waiting (conn : Connection) : List String :=
  ((callOf conn.stage).toList ++ conn.inbound.filter isCall).map callIdOf

def Honest (applied : List String) : OutboundMsg × Origin → Prop
  | (.resultOk _ _ callId _, origin) => callId ∈ applied ∧
    ∃ frame, origin = .answer frame ∧ isCall frame ∧ callIdOf frame = callId
  | (.error .., .answer frame) => isCall frame → callIdOf frame ∉ applied
  | (.error .., .change _) => False
  | _ => True

def StageHonest (applied : List String) : TaskStage → Prop
  | .idle | .echoing | .closing _ => True
  | .opening frame _ | .opened frame .. | .replaying frame .. | .snapshotted frame .. =>
    isCall frame = false
  | .accepted frame _ => isCall frame ∧ callIdOf frame ∉ applied
  | .publishing _ (.answer frame _) | .sending _ _ _ (.answer frame _) | .delivering _ frame _
  | .answering frame .. => isCall frame ∧ callIdOf frame ∈ applied
  | .publishing _ (.clean _) | .sending _ _ _ (.clean _) | .cleaning _ | .ended => False

def Settlement.Right (applied : List String) (x : Settlement) : Prop :=
  (x.resolved = true ↔ x.callId ∈ applied) ∧
  ∃ frame, x.origin = .answer frame ∧ isCall frame ∧ callIdOf frame = x.callId

end Calls

/-! ### One step of a task -/

namespace Wires
open Calls

def dispatch (c : Wires) : Option (String × OutboundMsg × Origin) → Wires
  | none => c
  | some (t, msg, origin) => c.send t msg origin

structure Serves (applied : List String) (conn : Connection)
    (msg : Option (String × OutboundMsg × Origin)) (conn' : Connection) : Prop where
  waiting : (msg.toList.filterMap fun m => answerId m.2) ++ waiting conn' = waiting conn
  honest : ∀ m ∈ msg, Honest (applied ++ executed conn.stage) m.2
  stage : StageHonest (applied ++ executed conn.stage) conn'.stage
  inbound : ∀ frame ∈ conn'.inbound, frame ∈ conn.inbound

def Keeps (conn : Connection) (msg : Option (String × OutboundMsg × Origin))
    (conn' : Connection) : Prop :=
  ∀ applied, StageHonest applied conn.stage →
    (∀ frame ∈ conn.inbound, isCall frame → callIdOf frame ∉ applied) →
    Serves applied conn msg conn'

def Serviced (t : String) (conn : Connection) (c c' : Wires) : Prop :=
  ∃ server msg conn', server.handles = c.server.handles ∧
    c' = ({ c with server := server }.dispatch msg).put t conn' ∧
    (∀ m ∈ msg, m.1 ≠ t → ∃ streamId seq version ops k,
      m.2 = (.delta streamId seq version ops, .change k)) ∧
    Keeps conn msg conn'

variable {s t : String} {c c' : Wires} {conn conn' : Connection} {applied : List String}
  {msg : Option (String × OutboundMsg × Origin)}

theorem keeps_of_same
    (hexec : executed conn.stage = []) (hcall : callOf conn'.stage = callOf conn.stage)
    (hinbound : conn'.inbound = conn.inbound)
    (hstage : ∀ applied, StageHonest applied conn.stage → StageHonest applied conn'.stage)
    (hmsg : ∀ applied, StageHonest applied conn.stage → ∀ m ∈ msg,
      answerId m.2 = none ∧ Honest applied m.2) : Keeps conn msg conn' := by
  intro applied hold _
  have hnone : (msg.toList.filterMap fun m => answerId m.2) = [] := by
    rw [filterMap_eq_nil_iff]
    exact fun m hm => (hmsg applied hold m (mem_toList.mp hm)).1
  constructor
  · rw [hnone, nil_append, waiting, waiting, hcall, hinbound]
  · rw [hexec, append_nil]
    exact fun m hm => (hmsg applied hold m hm).2
  · rw [hexec, append_nil]
    exact hstage applied hold
  · rw [hinbound]
    exact fun _ => id

theorem serviced_put (hhandles : server.handles = c.server.handles)
    (h : Keeps conn none conn') : Serviced t conn c ({ c with server := server }.put t conn') :=
  ⟨server, none, conn', hhandles, rfl, by simp, h⟩

theorem serviced_send {target : String} {msg : OutboundMsg}
    (htarget : target ≠ t → ∃ streamId seq version ops k,
      (msg, origin) = (.delta streamId seq version ops, .change k))
    (h : Keeps conn (some (target, msg, origin)) conn') :
    Serviced t conn c ((c.send target msg origin).put t conn') := by
  refine ⟨c.server, some (target, msg, origin), conn', rfl, rfl, fun m hm => ?_, h⟩
  rw [mem_some_iff] at hm
  subst hm
  exact htarget

theorem serviced_reply {conn₀ : Connection} {msg : ℕ → OutboundMsg}
    {stage : TaskStage} (h : Keeps conn (some (t, msg conn₀.session.nextSeq.2, origin))
      { conn₀ with session := conn₀.session.nextSeq.1, stage := stage }) :
    Serviced t conn c (c.reply t conn₀ origin msg stage) :=
  serviced_send (fun hne => absurd rfl hne) h

section
variable {session : Session} {stage : TaskStage} {server : SodpServer} {target : String}
  {msg : OutboundMsg} {origin : Origin} (hexec : executed conn.stage = [])
  (hcall : callOf stage = callOf conn.stage)
  (hstage : ∀ applied, StageHonest applied conn.stage → StageHonest applied stage)
include hexec hcall hstage

theorem serviced_quiet (hhandles : server.handles = c.server.handles) :
    Serviced t conn c ({ c with server := server }.put t
      { conn with session := session, stage := stage }) :=
  serviced_put hhandles (keeps_of_same hexec hcall rfl hstage fun _ _ _ => nofun)

theorem serviced_told (htarget : target ≠ t → ∃ streamId seq version ops k,
      (msg, origin) = (.delta streamId seq version ops, .change k))
    (hmsg : ∀ applied, StageHonest applied conn.stage →
      answerId (msg, origin) = none ∧ Honest applied (msg, origin)) :
    Serviced t conn c ((c.send target msg origin).put t
      { conn with session := session, stage := stage }) := by
  refine serviced_send htarget (keeps_of_same hexec hcall rfl hstage ?_)
  rintro applied hold m ⟨⟩
  exact hmsg applied hold

end

theorem serviced_mutate {call : Call} {changed : Change → TaskStage} {unchanged : ℕ → TaskStage}
    (hchanged : ∀ change, Keeps conn none { conn with stage := changed change })
    (hunchanged : ∀ version, Keeps conn none { conn with stage := unchanged version }) :
    Serviced t conn c (c.mutate t conn call changed unchanged) := by
  rw [mutate]
  split
  · exact serviced_put rfl (hunchanged 0)
  · next version _ _ =>
    refine serviced_put rfl ?_
    split_ifs
    · exact hunchanged version
    · exact hchanged _

theorem answers_forbidden {frame : Frame} (hother : frame.frameType ≠ .call) (stateKey : String)
    (seq : ℕ) : answerId (forbidden frame stateKey seq, .answer frame) = none ∧
      Honest applied (forbidden frame stateKey seq, .answer frame) := by
  have hcall : isCall frame = false := decide_eq_false hother
  rw [forbidden]
  split_ifs <;> exact ⟨if_neg hother, fun h => absurd h (by simp [hcall])⟩

theorem serviced_idle {now : ℕ} (hcase : conn.stage = .idle)
    (hstep : c.advance t now conn = some c') : Serviced t conn c c' := by
  rw [Wires.advance] at hstep
  simp only [hcase] at hstep
  cases hin : conn.inbound with
  | nil => simp [hin] at hstep
  | cons frame inbound =>
    have hwaiting : Calls.waiting conn = ((frame :: inbound).filter isCall).map callIdOf := by
      rw [Calls.waiting, hcase, hin]
      rfl
    have hsub : ∀ asked ∈ inbound, asked ∈ conn.inbound := by
      rw [hin]
      exact fun asked => mem_cons_of_mem frame
    simp only [hin] at hstep
    cases htake : (c.server.takeFrame conn.session frame now).2 with
    | error =>
      simp only [htake] at hstep
      cases hstep
      refine serviced_reply fun applied _ hnew => ⟨?_, ?_, trivial, hsub⟩
      · rw [hwaiting]
        by_cases hcall : frame.frameType = .call <;>
          simp [Calls.waiting, callOf, answerId, isCall, hcall]
      · intro m hm
        rw [mem_some_iff] at hm
        subst hm
        rw [hcase]
        change isCall frame → callIdOf frame ∉ applied ++ []
        rw [append_nil]
        exact hnew frame (hin ▸ mem_cons_self)
    | ok stage =>
      simp only [htake] at hstep
      cases hstep
      have hstarts := starts_takeFrame htake
      refine serviced_put rfl fun applied _ hnew => ⟨?_, by simp, ?_, hsub⟩
      · rw [hwaiting]
        cases stage with
        | idle | echoing | closing keys =>
          have hother : frame.frameType ≠ .call := hstarts
          simp [Calls.waiting, callOf, isCall, hother]
        | opening => simp [Calls.waiting, callOf, isCall, hstarts.2]
        | accepted =>
          obtain ⟨rfl, hcall⟩ := hstarts
          simp [Calls.waiting, callOf, isCall, hcall]
        | _ => exact hstarts.elim
      · rw [hcase]
        cases stage with
        | idle | echoing | closing keys => trivial
        | opening =>
          obtain ⟨rfl, hcall⟩ := hstarts
          exact decide_eq_false hcall
        | accepted asked =>
          obtain ⟨rfl, hcall⟩ := hstarts
          refine ⟨decide_eq_true hcall, ?_⟩
          change callIdOf asked ∉ applied ++ []
          rw [append_nil]
          exact hnew asked (hin ▸ mem_cons_self) (decide_eq_true hcall)
        | _ => exact hstarts.elim

theorem serviced_advance {now : ℕ} (hstep : c.advance t now conn = some c') :
    Serviced t conn c c' := by
  obtain ⟨session, _, stage⟩ := conn
  cases stage with
  | idle => exact serviced_idle rfl hstep
  | echoing | snapshotted frame streamId k entry rest =>
    cases hstep
    exact serviced_told rfl rfl (fun _ => id) (absurd rfl) fun _ _ => ⟨rfl, trivial⟩
  | opening frame requests =>
    cases requests with
    | nil =>
      cases hstep
      exact serviced_quiet rfl rfl (fun _ _ => trivial) rfl
    | cons =>
      dsimp only [Wires.advance] at hstep
      split_ifs at hstep <;> cases hstep
      · exact serviced_quiet rfl rfl (fun _ => id) rfl
      · exact serviced_told rfl rfl (fun _ => id) (absurd rfl)
          fun _ hother => answers_forbidden (of_decide_eq_false hother) ..
  | opened =>
    cases hstep
    exact serviced_quiet rfl rfl (fun _ => id) rfl
  | replaying frame streamId k missed =>
    cases missed with
    | nil =>
      cases hstep
      exact serviced_quiet rfl rfl (fun _ => id) rfl
    | cons =>
      cases hstep
      exact serviced_told rfl rfl (fun _ => id) (absurd rfl) fun _ _ => ⟨rfl, trivial⟩
  | closing keys =>
    cases keys with
    | nil =>
      cases hstep
      exact serviced_quiet rfl rfl (fun _ => id) rfl
    | cons =>
      cases hstep
      refine serviced_quiet rfl rfl (fun _ => id) ?_
      rw [unwatchKey]
      split <;> rfl
  | accepted =>
    cases hstep
    refine serviced_mutate (fun change => ?_) fun version => ?_ <;>
      exact fun applied hold _ => ⟨rfl, by simp, ⟨hold.1, by simp [executed]⟩, fun _ => id⟩
  | publishing change next =>
    cases hstep
    cases next <;> exact serviced_quiet rfl rfl (fun _ => id) rfl
  | sending change targets slow next =>
    cases targets with
    | nil =>
      cases hstep
      cases next <;> exact serviced_quiet rfl rfl (fun _ => id) rfl
    | cons =>
      cases hstep
      cases next <;> exact serviced_told rfl rfl (fun _ => id)
        (fun _ => ⟨_, _, _, _, _, rfl⟩) fun _ _ => ⟨rfl, trivial⟩
  | delivering change =>
    cases hstep
    cases session.watchStreamId change.stateKey with
    | none => exact serviced_quiet rfl rfl (fun _ => id) rfl
    | some =>
      exact serviced_told rfl rfl (fun _ => id) (absurd rfl) fun _ _ => ⟨rfl, trivial⟩
  | answering frame =>
    cases hstep
    refine serviced_reply fun applied hstage _ => ⟨?_, ?_, trivial, fun _ => id⟩
    · simp [waiting, callOf, answerId]
    · rintro m ⟨⟩
      exact ⟨mem_append_left _ hstage.2, frame, rfl, hstage.1, rfl⟩
  | cleaning entries =>
    cases entries with
    | nil =>
      cases hstep
      exact serviced_quiet rfl rfl (fun _ => id) rfl
    | cons =>
      dsimp only [Wires.advance] at hstep
      split at hstep <;> cases hstep
      · exact serviced_quiet rfl rfl (fun _ => id) rfl
      · refine serviced_mutate (fun change => ?_) fun version => ?_ <;>
          exact keeps_of_same rfl rfl rfl (fun _ => id) fun _ _ => by simp
  | ended => cases hstep

theorem told_dispatch
    (haligned : (c.origins s).length = (c.server.handles s).queue.length)
    (hopen : ((c.dispatch msg).server.handles s).cancelled = false) :
    Told s ((msg.toList.filter fun m => m.1 = s).map Prod.snd) c (c.dispatch msg) := by
  cases msg with
  | none => exact ⟨(append_nil _).symm, id, rfl⟩
  | some m =>
    have hsent := told_send haligned hopen
    have hfilter : ((some m).toList.filter fun m => m.1 = s).map Prod.snd =
        if m.1 = s then [m.2] else [] := by
      by_cases hm : m.1 = s <;> simp [hm]
    rw [hfilter]
    exact hsent

theorem connection_dispatch (msg : Option (String × OutboundMsg × Origin)) :
    (c.dispatch msg).connection = c.connection := by
  cases msg <;> rfl

end Wires

end Sodp
