import Sodp.Publish

/-!
# What a handler can do

Whatever frame a session sends, the server answers with a short list of effects. `Effect` lists them
with the checks that the code has made by then, and with the call of the store that a mutation is.
Properties of whole runs are proved for each effect; that the handlers do nothing else is proved
once, here.
-/

namespace Sodp
open StateStore List

variable {session : Session}

namespace Session

structure SameStanding (a b : Session) : Prop where
  id : b.id = a.id
  sub : b.sub = a.sub
  claims : b.claims = a.claims
  presence : b.presence = a.presence
  nextStreamId : b.nextStreamId = a.nextStreamId
  watches : ∀ streamId k, b.Watches streamId k ↔ a.Watches streamId k

theorem sameStanding_nextSeq (session : Session) : session.SameStanding session.nextSeq.1 :=
  ⟨rfl, rfl, rfl, rfl, rfl, fun _ _ => Iff.rfl⟩

theorem sameStanding_allowWatch (session : Session) (now : ℕ) :
    session.SameStanding (session.allowWatch now).1 := by
  rw [allowWatch]
  cases session.watchLimiter <;> exact ⟨rfl, rfl, rfl, rfl, rfl, fun _ _ => Iff.rfl⟩

theorem sameStanding_allowWrite (session : Session) (now : ℕ) :
    session.SameStanding (session.allowWrite now).1 := by
  rw [allowWrite]
  cases session.writeLimiter <;> exact ⟨rfl, rfl, rfl, rfl, rfl, fun _ _ => Iff.rfl⟩

theorem sameStanding_ackStream (session : Session) (streamId seq : ℕ) :
    session.SameStanding (session.ackStream streamId seq) := by
  cases hw : session.watches.get? streamId with
  | none =>
    rw [ackStream, hw]
    exact ⟨rfl, rfl, rfl, rfl, rfl, fun _ _ => Iff.rfl⟩
  | some =>
    rw [ackStream, hw]
    refine ⟨rfl, rfl, rfl, rfl, rfl, fun n k => ?_⟩
    rw [Watches, Watches, OrderedMap.get?_insert]
    split_ifs with hn
    · simp [hn, hw]
    · rfl

theorem mem_addPresence {stateKey path : String} {entry : PresenceEntry} :
    entry ∈ (session.addPresence stateKey path).presence ↔
      entry ∈ session.presence ∨ entry = ⟨stateKey, path⟩ := by
  rw [addPresence]
  split_ifs with hany
  · constructor
    · exact Or.inl
    · rintro (hmem | rfl)
      · exact hmem
      · obtain ⟨⟨k, p⟩, hmem, hsame⟩ := any_eq_true.mp hany
        obtain ⟨rfl, rfl⟩ := of_decide_eq_true hsame
        exact hmem
  · simp

end Session

def OutboundMsg.aboutState : OutboundMsg → Bool
  | .stateInit .. => true
  | .delta .. => true
  | _ => false

namespace SodpServer

/-- The schema, if there is one, accepts what the call stores. -/
def Accepts (srv : SodpServer) : Call → Prop
  | .apply key value => ∀ schema ∈ srv.schema, schema.validate key value = .ok ()
  | .delete _ => True

section Effects
variable (ended : List String)

inductive Effect : SodpServer × Session → List Call → SodpServer × Session → Prop
  | adjust {srv : SodpServer} {session session' : Session} (h : session.SameStanding session') :
      Effect (srv, session) [] (srv, session')
  | notice {srv : SodpServer} {session : Session} {msg : OutboundMsg}
      (h : msg.aboutState = false) : Effect (srv, session) [] (srv.send session.id msg, session)
  | openStream {srv : SodpServer} {session : Session} {k : String} (params : Option Value)
      (hread : srv.canRead session k = true) :
      Effect (srv, session) [] (srv.openStream session k params)
  | stateInit {srv : SodpServer} {session : Session} {k : String} (streamId seq : ℕ)
      (params : Option Value) (hread : srv.canRead session k = true) :
      Effect (srv, session) [] (srv.send session.id (.stateInit streamId seq k
        (srv.readEntry k).1 (srv.readEntry k).2.1 (srv.readEntry k).2.2 params), session)
  | replay {srv : SodpServer} {session : Session} {k : String} {d : ℕ × List DeltaOp}
      (streamId seq : ℕ) (hread : srv.canRead session k = true)
      (hheld : d ∈ srv.state.log.held k) :
      Effect (srv, session) [] (srv.send session.id (.delta streamId seq d.1 d.2), session)
  | closeStream {srv : SodpServer} {session : Session} {k : String} {streamId : ℕ}
      (hended : k ∈ ended) (hid : session.watchStreamId k = some streamId) :
      Effect (srv, session) [] ({ srv with fanout := srv.fanout.unsubscribe k session.id },
        session.removeWatch streamId)
  | commit {srv : SodpServer} {session : Session} {call : Call}
      (hwrite : srv.canWrite session call.key = true) (hvalid : srv.Accepts call) :
      Effect (srv, session) [call] ((srv.commit session call).1, session)
  | own {srv : SodpServer} {session : Session} {entry : PresenceEntry}
      (hwrite : srv.canWrite session entry.stateKey = true) :
      Effect (srv, session) [] (srv, session.addPresence entry.stateKey entry.path)
  | cleanup {srv : SodpServer} {session : Session} {entry : PresenceEntry} {e : StateEntry}
      (howned : entry ∈ session.presence) (he : srv.state.get entry.stateKey = some e) :
      Effect (srv, session) [cleanupCall entry e] (srv.cleanup entry, session)

inductive Effects : SodpServer × Session → List Call → SodpServer × Session → Prop
  | refl (acc : SodpServer × Session) : Effects acc [] acc
  | head {acc mid acc' : SodpServer × Session} {calls more : List Call}
      (hstep : Effect ended acc calls mid) (hrest : Effects mid more acc') :
      Effects acc (calls ++ more) acc'

end Effects

structure Fixed (acc acc' : SodpServer × Session) : Prop where
  acl : acc'.1.acl = acc.1.acl
  schema : acc'.1.schema = acc.1.schema
  id : acc'.2.id = acc.2.id
  sub : acc'.2.sub = acc.2.sub
  claims : acc'.2.claims = acc.2.claims

namespace Fixed
variable {acc mid acc' : SodpServer × Session}

theorem refl (acc : SodpServer × Session) : Fixed acc acc := ⟨rfl, rfl, rfl, rfl, rfl⟩

theorem trans (h : Fixed acc mid) (h' : Fixed mid acc') : Fixed acc acc' :=
  ⟨h'.acl.trans h.acl, h'.schema.trans h.schema, h'.id.trans h.id, h'.sub.trans h.sub,
    h'.claims.trans h.claims⟩

theorem canRead (h : Fixed acc acc') (k : String) :
    acc'.1.canRead acc'.2 k = acc.1.canRead acc.2 k := by
  rw [SodpServer.canRead, h.acl, h.sub, h.claims, SodpServer.canRead]

theorem canWrite (h : Fixed acc acc') (k : String) :
    acc'.1.canWrite acc'.2 k = acc.1.canWrite acc.2 k := by
  rw [SodpServer.canWrite, h.acl, h.sub, h.claims, SodpServer.canWrite]

end Fixed

theorem publish_rules (srv : SodpServer) (session : Session) (stateKey : String) (version : ℕ)
    (ops : List DeltaOp) : (srv.publish session stateKey version ops).acl = srv.acl ∧
    (srv.publish session stateKey version ops).schema = srv.schema := by
  rw [publish]
  cases session.watchStreamId stateKey <;> exact ⟨rfl, rfl⟩

variable {ended : List String} {srv : SodpServer} {k : String} {args : Value} {calls : List Call}

theorem Effect.fixed {acc acc' : SodpServer × Session}
    (h : Effect ended acc calls acc') : Fixed acc acc' := by
  cases h with
  | adjust h => exact ⟨rfl, rfl, h.id, h.sub, h.claims⟩
  | commit =>
    refine ⟨?_, ?_, rfl, rfl, rfl⟩
    · rw [commit_eq]
      split_ifs
      · rfl
      · exact (publish_rules ..).1
    · rw [commit_eq]
      split_ifs
      · rfl
      · exact (publish_rules ..).2
  | own =>
    rw [Session.addPresence]
    split_ifs <;> exact ⟨rfl, rfl, rfl, rfl, rfl⟩
  | cleanup howned he =>
    rw [cleanup_eq he]
    split_ifs <;> exact ⟨rfl, rfl, rfl, rfl, rfl⟩
  | notice | openStream | stateInit | replay | closeStream => exact ⟨rfl, rfl, rfl, rfl, rfl⟩

theorem Effect.state {acc acc' : SodpServer × Session}
    (h : Effect ended acc calls acc') : acc'.1.state = acc.1.state.execAll calls := by
  cases h with
  | commit => exact state_commit ..
  | cleanup howned he => exact state_cleanup he
  | adjust | notice | openStream | stateInit | replay | closeStream | own => rfl

variable {frame : Frame}

namespace Effects
variable {ended : List String} {acc mid acc' : SodpServer × Session} {calls more : List Call}

theorem single (h : Effect ended acc calls acc') : Effects ended acc calls acc' := by
  have hone := Effects.head h (.refl acc')
  rwa [append_nil] at hone

theorem trans (h : Effects ended acc calls mid) (h' : Effects ended mid more acc') :
    Effects ended acc (calls ++ more) acc' := by
  induction h with
  | refl => exact h'
  | head hstep _ ih =>
    rw [append_assoc]
    exact .head hstep (ih h')

theorem andThen (h : Effect ended acc [] mid) (h' : Effects ended mid calls acc') :
    Effects ended acc calls acc' := .head h h'

theorem fixed (h : Effects ended acc calls acc') : Fixed acc acc' := by
  induction h with
  | refl acc => exact .refl acc
  | head hstep _ ih => exact hstep.fixed.trans ih

theorem state (h : Effects ended acc calls acc') : acc'.1.state = acc.1.state.execAll calls := by
  induction h with
  | refl => rfl
  | head hstep _ ih => rw [ih, hstep.state, execAll, execAll, execAll, foldl_append]

theorem reply {srv : SodpServer} {msg : ℕ → OutboundMsg} (h : Effect ended (srv, session) []
      (srv.send session.id (msg session.nextSeq.2), session)) :
    Effects ended (srv, session) [] (srv.reply session msg) :=
  .andThen h (.single (.adjust session.sameStanding_nextSeq))

theorem refused (ended : List String) (srv : SodpServer) (session : Session)
    (streamId code : ℕ) (message : String) : Effects ended (srv, session) []
      (srv.reply session fun seq => .error streamId seq code message) :=
  reply (.notice rfl)

/-! ### WATCH, UNWATCH, RESUME -/

variable {k : String}

theorem replayAll {ds : List (ℕ × List DeltaOp)} (streamId : ℕ)
    (hread : acc.1.canRead acc.2 k = true) (hheld : ds ⊆ acc.1.state.log.held k) :
    Effects ended acc [] (SodpServer.replayAll streamId acc ds) := by
  induction ds generalizing acc with
  | nil => exact .refl acc
  | cons d ds ih =>
    rw [cons_subset] at hheld
    exact (reply (.replay streamId _ hread hheld.1)).trans (ih hread hheld.2)

theorem missedBy_subset (srv : SodpServer) (k : String) (sinceVersion : ℕ) :
    srv.missedBy k sinceVersion ⊆ srv.state.log.held k := by
  rw [missedBy, deltasSince, DeltaLog.since_eq_filter]
  split_ifs
  · exact filter_subset_self _
  · exact nil_subset _

theorem resumeKey {srv : SodpServer} (hread : srv.canRead session k = true) (sinceVersion : ℕ)
    (params : Option Value) :
    Effects ended (srv, session) [] (srv.resumeKey session k sinceVersion params) := by
  have hreplay : Effects ended (srv.openStream session k params) []
      (SodpServer.replayAll session.nextStreamId (srv.openStream session k params)
        (srv.missedBy k sinceVersion)) :=
    replayAll _ hread (missedBy_subset srv k sinceVersion)
  rw [SodpServer.resumeKey, replayMissed_eq]
  refine .andThen (.openStream params hread) (hreplay.trans (reply (.stateInit _ _ params ?_)))
  exact (hreplay.fixed.canRead k).trans hread

theorem watchKey (params : Option Value) (acc : SodpServer × Session) (k : String) :
    Effects ended acc [] (SodpServer.watchKey params acc k) := by
  rw [SodpServer.watchKey]
  split_ifs with hread
  · rw [subscribeKey_eq]
    exact resumeKey hread 0 params
  · exact refused ..

theorem foldl {α : Type*} {f : SodpServer × Session → α → SodpServer × Session} {xs : List α}
    (hround : ∀ acc, ∀ x ∈ xs, Effects ended acc [] (f acc x)) (acc : SodpServer × Session) :
    Effects ended acc [] (xs.foldl f acc) := by
  induction xs generalizing acc with
  | nil => exact .refl acc
  | cons x xs ih =>
    exact (hround acc x mem_cons_self).trans
      (ih (fun acc y hy => hround acc y (mem_cons_of_mem x hy)) _)

theorem handleWatch (srv : SodpServer) (session : Session) (frame : Frame) (now : ℕ) :
    Effects ended (srv, session) [] (srv.handleWatch session frame now) := by
  rw [SodpServer.handleWatch]
  refine .andThen (.adjust (session.sameStanding_allowWatch now)) ?_
  dsimp only
  split_ifs
  · cases requestedKeys frame.body with
    | none => exact refused ..
    | some => exact foldl (fun acc k _ => watchKey _ acc k) _
  · exact refused ..

theorem handleResume (srv : SodpServer) (session : Session) (frame : Frame) (now : ℕ) :
    Effects ended (srv, session) [] (srv.handleResume session frame now) := by
  rw [SodpServer.handleResume]
  refine .andThen (.adjust (session.sameStanding_allowWatch now)) ?_
  dsimp only
  split_ifs
  · cases (frame.body.get? "state").bind Value.asStr with
    | none => exact refused ..
    | some =>
      dsimp only
      split_ifs with hread
      · exact resumeKey hread _ _
      · exact refused ..
  · exact refused ..

theorem unwatchKey (hended : k ∈ ended) (acc : SodpServer × Session) :
    Effects ended acc [] (SodpServer.unwatchKey acc k) := by
  rw [SodpServer.unwatchKey]
  cases hid : acc.2.watchStreamId k with
  | none => exact .refl acc
  | some => exact .single (.closeStream hended hid)

theorem handleUnwatch {keys : List String}
    (hkeys : requestedKeys frame.body = some keys) (srv : SodpServer) (session : Session) :
    Effects keys (srv, session) [] (srv.handleUnwatch session frame) := by
  rw [SodpServer.handleUnwatch, hkeys]
  exact foldl (fun acc k hk => unwatchKey hk acc) _

end Effects

/-! ### CALL -/

theorem validated_eq_ok_iff {value value' : Value} : srv.validated k value = .ok value' ↔
      value = value' ∧ srv.Accepts (.apply k value) := by
  rw [validated, Accepts]
  cases srv.schema with
  | none => simp
  | some schema => cases hvalid : schema.validate k value <;> simp [hvalid]

theorem stateArg_eq_ok_iff {ctx : String} :
    stateArg args ctx = .ok k ↔ (args.get? "state").bind Value.asStr = some k := by
  rw [stateArg]
  cases (args.get? "state").bind Value.asStr <;> simp

theorem pathArg_eq_ok_iff {ctx path : String} :
    pathArg args ctx = .ok path ↔ (args.get? "path").bind Value.asStr = some path := by
  rw [pathArg]
  cases (args.get? "path").bind Value.asStr <;> simp

theorem patchArg_eq_ok_iff {patch : Value} :
    patchArg args = .ok patch ↔ args.get? "patch" = some patch ∧ patch.isObject = true := by
  rw [patchArg]
  cases args.get? "patch" with
  | none => simp
  | some p => by_cases hp : p.isObject = true <;> aesop

theorem setInArg_eq_ok_iff {path : String} {value : Value} : srv.setInArg args k path = .ok value ↔
      jsonSetIn (srv.state.valueOf k) path (valueArg args) = .ok value ∧
        srv.Accepts (.apply k value) := by
  rw [setInArg]
  cases jsonSetIn (srv.state.valueOf k) path (valueArg args) with
  | error => simp
  | ok updated =>
    simp only [validated_eq_ok_iff, Except.ok.injEq]
    exact and_congr_right fun h => by rw [h]

variable {request : Request}

/-- What a method does with its arguments, and that nothing refuses it. -/
inductive Asks (srv : SodpServer) (args : Value) (k : String) : Method → Request → Prop
  | set (hvalid : srv.Accepts (.apply k (valueArg args))) :
      Asks srv args k .set ⟨.apply k (valueArg args), none⟩
  | patch {patch value : Value} (hpatch : args.get? "patch" = some patch)
      (hobject : patch.isObject = true)
      (hvalue : jsonMerge (((srv.state.get k).map StateEntry.value).getD (.object .empty)) patch =
        value)
      (hvalid : srv.Accepts (.apply k value)) : Asks srv args k .patch ⟨.apply k value, none⟩
  | setIn {path : String} {value : Value} (hpath : (args.get? "path").bind Value.asStr = some path)
      (hvalue : jsonSetIn (srv.state.valueOf k) path (valueArg args) = .ok value)
      (hvalid : srv.Accepts (.apply k value)) : Asks srv args k .setIn ⟨.apply k value, none⟩
  | delete : Asks srv args k .delete ⟨.delete k, none⟩
  | presence {path : String} {value : Value}
      (hpath : (args.get? "path").bind Value.asStr = some path)
      (hvalue : jsonSetIn (srv.state.valueOf k) path (valueArg args) = .ok value)
      (hvalid : srv.Accepts (.apply k value)) :
      Asks srv args k .presence ⟨.apply k value, some ⟨k, path⟩⟩

theorem prepare_eq_ok_iff {method : Method} : srv.prepare args method = .ok request ↔
      ∃ k, (args.get? "state").bind Value.asStr = some k ∧ Asks srv args k method request := by
  cases method with
  | set =>
    simp only [prepare, bind_eq_ok_iff, stateArg_eq_ok_iff, validated_eq_ok_iff]
    constructor
    · rintro ⟨k, hk, _, ⟨rfl, hvalid⟩, ⟨⟩⟩
      exact ⟨k, hk, .set hvalid⟩
    · rintro ⟨k, hk, ⟨hvalid⟩⟩
      exact ⟨k, hk, _, ⟨rfl, hvalid⟩, rfl⟩
  | patch =>
    simp only [prepare, bind_eq_ok_iff, stateArg_eq_ok_iff, patchArg_eq_ok_iff,
      validated_eq_ok_iff]
    constructor
    · rintro ⟨k, hk, _, ⟨hpatch, hobject⟩, _, ⟨rfl, hvalid⟩, ⟨⟩⟩
      exact ⟨k, hk, .patch hpatch hobject rfl hvalid⟩
    · rintro ⟨k, hk, _ | ⟨hpatch, hobject, rfl, hvalid⟩⟩
      exact ⟨k, hk, _, ⟨hpatch, hobject⟩, _, ⟨rfl, hvalid⟩, rfl⟩
  | setIn | presence =>
    simp only [prepare, bind_eq_ok_iff, stateArg_eq_ok_iff, pathArg_eq_ok_iff,
      setInArg_eq_ok_iff]
    constructor
    · rintro ⟨k, hk, _, hpath, _, ⟨hvalue, hvalid⟩, ⟨⟩⟩
      exact ⟨k, hk, by constructor <;> assumption⟩
    · rintro ⟨k, hk, hasks⟩
      cases hasks
      exact ⟨k, hk, _, ‹_›, _, ⟨‹_›, ‹_›⟩, rfl⟩
  | delete =>
    simp only [prepare, bind_eq_ok_iff, stateArg_eq_ok_iff]
    constructor
    · rintro ⟨k, hk, ⟨⟩⟩
      exact ⟨k, hk, .delete⟩
    · rintro ⟨k, hk, ⟨⟩⟩
      exact ⟨k, hk, rfl⟩
  | unknown => exact iff_of_false nofun (by rintro ⟨_, _, ⟨⟩⟩)

theorem startsWithSlash_of_jsonSetIn {root value updated : Value} {path : String}
    (h : jsonSetIn root path value = .ok updated) : startsWithSlash path = true := by
  by_contra hslash
  have hroot : path ≠ "/" := by
    rintro rfl
    exact hslash (by decide)
  simp [jsonSetIn, hroot, hslash] at h

theorem prepare_eq_ok {method : Method} (h : srv.prepare args method = .ok request) :
    (args.get? "state").bind Value.asStr = some request.call.key ∧ srv.Accepts request.call ∧
    ∀ entry ∈ request.presence,
      entry.stateKey = request.call.key ∧ startsWithSlash entry.path = true := by
  obtain ⟨k, hk, hasks⟩ := prepare_eq_ok_iff.mp h
  cases hasks with
  | set hvalid => exact ⟨hk, hvalid, by simp⟩
  | patch _ _ _ hvalid => exact ⟨hk, hvalid, by simp⟩
  | setIn _ _ hvalid => exact ⟨hk, hvalid, by simp⟩
  | delete => exact ⟨hk, trivial, by simp⟩
  | presence _ hvalue hvalid =>
    exact ⟨hk, hvalid, by simp [Call.key, startsWithSlash_of_jsonSetIn hvalue]⟩

def acceptedRequest (srv : SodpServer) (session : Session) (frame : Frame) (now : ℕ) :
    Option Request :=
  match (frame.body.get? "method").bind Value.asStr with
  | none => none
  | some name =>
    let args := (frame.body.get? "args").getD .null
    let (session, allowed) := session.allowWrite now
    if ¬ allowed then none
    else if ((args.get? "state").bind Value.asStr).any fun k => ! srv.canWrite session k then none
    else (srv.prepare args (Method.ofName name)).toOption

def frameCalls (srv : SodpServer) (session : Session) (frame : Frame) (now : ℕ) : List Call :=
  if frame.frameType = .call then
    ((srv.acceptedRequest session frame now).map Request.call).toList
  else []

/-- What acceptance means on the fields of the frame. -/
theorem acceptedRequest_eq_some_iff {now : ℕ} :
    srv.acceptedRequest session frame now = some request ↔
      ∃ name k, (frame.body.get? "method").bind Value.asStr = some name ∧
        (session.allowWrite now).2 = true ∧
        (((frame.body.get? "args").getD .null).get? "state").bind Value.asStr = some k ∧
        srv.canWrite session k = true ∧
        Asks srv ((frame.body.get? "args").getD .null) k (.ofName name) request := by
  have hsame := session.sameStanding_allowWrite now
  have hwrite : ∀ k, srv.canWrite (session.allowWrite now).1 k = srv.canWrite session k := by
    intro k
    rw [canWrite, canWrite, hsame.sub, hsame.claims]
  rw [acceptedRequest]
  cases (frame.body.get? "method").bind Value.asStr with
  | none => simp
  | some name =>
    cases hallow : (session.allowWrite now).2 with
    | false => simp [hallow]
    | true =>
      have hprepare : srv.prepare ((frame.body.get? "args").getD .null) (.ofName name) =
        .ok request ↔ _ := prepare_eq_ok_iff
      cases hk : (((frame.body.get? "args").getD .null).get? "state").bind Value.asStr <;>
        cases hresult : srv.prepare ((frame.body.get? "args").getD .null) (.ofName name) <;>
          simp_all [Except.toOption]

theorem prepare_of_accepted {now : ℕ} (h : srv.acceptedRequest session frame now = some request) :
    ∃ method, srv.prepare ((frame.body.get? "args").getD .null) method = .ok request := by
  obtain ⟨name, k, -, -, hk, -, hasks⟩ := acceptedRequest_eq_some_iff.mp h
  exact ⟨.ofName name, prepare_eq_ok_iff.mpr ⟨k, hk, hasks⟩⟩

theorem sameTable_own (session : Session) (presence : Option PresenceEntry) :
    session.SameTable (own session presence) := by
  cases presence with
  | none => exact .refl _
  | some => exact session.sameTable_addPresence _ _

theorem handleCall_cases (srv : SodpServer) (session : Session) (frame : Frame) (now : ℕ) :
    ∃ session', session.SameTable session' ∧ session'.presence = session.presence ∧
      match srv.acceptedRequest session frame now with
      | none => ∃ code message, srv.handleCall session frame now =
          srv.reply session' fun seq => .error frame.streamId seq code message
      | some request => srv.handleCall session frame now =
          (srv.commit session' request.call).1.reply (own session' request.presence) fun seq =>
            .resultOk frame.streamId seq
              (((frame.body.get? "call_id").bind Value.asStr).getD "unknown")
              (versionData (srv.commit session' request.call).2) := by
  rw [handleCall, acceptedRequest]
  cases (frame.body.get? "method").bind Value.asStr with
  | none => exact ⟨session, .refl _, rfl, _, _, rfl⟩
  | some name =>
    refine ⟨(session.allowWrite now).1, session.sameTable_allowWrite now,
      (session.sameStanding_allowWrite now).presence, ?_⟩
    dsimp only
    split_ifs
    · exact ⟨_, _, rfl⟩
    · rw [handleMethod]
      cases srv.prepare _ (Method.ofName name) with
      | error => exact ⟨_, _, rfl⟩
      | ok => rfl
    · exact ⟨_, _, rfl⟩

theorem Effects.handleMethod
    (hwrite : ((args.get? "state").bind Value.asStr).any
      (fun k => ! srv.canWrite session k) = false)
    (frame : Frame) (callId : String) (method : Method) :
    Effects ended (srv, session) (((srv.prepare args method).toOption.map Request.call).toList)
      (srv.handleMethod session frame callId method args) := by
  rw [SodpServer.handleMethod]
  cases hrequest : srv.prepare args method with
  | error => exact refused ..
  | ok request =>
    obtain ⟨hkey, hvalid, hpresence⟩ := prepare_eq_ok hrequest
    rw [hkey, Option.any_some, Bool.not_eq_false'] at hwrite
    have hcommit : Effects ended (srv, session) [request.call]
        ((srv.commit session request.call).1, session) := .single (.commit hwrite hvalid)
    have hown : Effects ended ((srv.commit session request.call).1, session) []
        ((srv.commit session request.call).1, SodpServer.own session request.presence) := by
      cases hentry : request.presence with
      | none => exact .refl _
      | some entry =>
        refine .single (.own ?_)
        rw [(hpresence entry hentry).1, hcommit.fixed.canWrite]
        exact hwrite
    exact hcommit.trans (hown.trans (reply (.notice rfl)))

theorem Effects.handleCall (htype : frame.frameType = .call) (srv : SodpServer)
    (session : Session) (now : ℕ) : Effects ended (srv, session) (srv.frameCalls session frame now)
      (srv.handleCall session frame now) := by
  rw [SodpServer.handleCall, frameCalls, if_pos htype, acceptedRequest]
  cases (frame.body.get? "method").bind Value.asStr with
  | none => exact refused ..
  | some =>
    refine .andThen (.adjust (session.sameStanding_allowWrite now)) ?_
    dsimp only
    split_ifs with hallowed hforbidden
    · exact refused ..
    · exact handleMethod (Bool.eq_false_of_not_eq_true hforbidden) frame _ _
    · exact refused ..

def unwatchedKeys (frame : Frame) : List String :=
  if frame.frameType = .unwatch then (requestedKeys frame.body).getD [] else []

theorem handleFrame_effects (srv : SodpServer) (session : Session) (frame : Frame) (now : ℕ) :
    Effects (unwatchedKeys frame) (srv, session) (srv.frameCalls session frame now)
      (srv.handleFrame session frame now) := by
  by_cases hcall : frame.frameType = .call
  · rw [handleFrame, hcall]
    exact Effects.handleCall hcall srv session now
  rw [frameCalls, if_neg hcall]
  by_cases hunwatch : frame.frameType = .unwatch
  · rw [handleFrame, hunwatch, unwatchedKeys, if_pos hunwatch]
    cases hkeys : requestedKeys frame.body with
    | none =>
      rw [handleUnwatch, hkeys]
      exact .refl _
    | some => exact Effects.handleUnwatch hkeys srv session
  rw [handleFrame]
  cases htype : frame.frameType with
  | watch => exact Effects.handleWatch ..
  | resume => exact Effects.handleResume ..
  | ack => exact .single (.adjust (session.sameStanding_ackStream ..))
  | heartbeat => exact .single (.notice rfl)
  | call => exact absurd htype hcall
  | unwatch => exact absurd htype hunwatch
  | hello | stateInit | delta | result | error | auth | authOk | unknown => exact .refl _

/-! ### The end of a connection -/

def cleanupCalls : StateStore → List PresenceEntry → List Call
  | _, [] => []
  | s, entry :: entries =>
    match s.get entry.stateKey with
    | none => cleanupCalls s entries
    | some e =>
      cleanupCall entry e :: cleanupCalls (s.exec (cleanupCall entry e)).1 entries

theorem Effects.cleanups {entries : List PresenceEntry} (howned : entries ⊆ session.presence)
    (srv : SodpServer) : Effects ended (srv, session) (cleanupCalls srv.state entries)
      (entries.foldl SodpServer.cleanup srv, session) := by
  induction entries generalizing srv with
  | nil => exact .refl _
  | cons entry entries ih =>
    rw [cons_subset] at howned
    cases he : srv.state.get entry.stateKey with
    | none =>
      have hskip : srv.cleanup entry = srv := by rw [SodpServer.cleanup, he]
      rw [cleanupCalls, he, foldl_cons, hskip]
      exact ih howned.2 srv
    | some =>
      have hrest := ih howned.2 (srv.cleanup entry)
      rw [state_cleanup he] at hrest
      rw [cleanupCalls, he]
      exact .head (.cleanup howned.1 he) hrest

theorem endSession_eq (srv : SodpServer) (session : Session) :
    ∃ cleaned, Effects [] (srv, session) (cleanupCalls srv.state session.presence)
        (cleaned, session) ∧ srv.endSession session =
        { cleaned with fanout := cleaned.fanout.removeSession session.id } :=
  ⟨_, .cleanups (List.Subset.refl _) srv, rfl⟩

end SodpServer

end Sodp
