import Sodp.ClientRequests
import Sodp.GoReplica
import Sodp.GoServerSteps

/-!
# A TypeScript client and a Go server

A client, its connection, and the server, with one request handled at a time and all messages read
before the next. When the connection is restored the client asks again for its keys, with RESUME
where it has a version. `since_version` is read from three of the number types that the decoder
produces, so what the server takes for it may be 0.
-/

namespace Sodp.GoServer
open Transition OrderedMap List Option
open Client (SodpClient)
open Client.SodpClient (withParams)

/-! ### Messages and frames -/

def OutMsg.read : OutMsg → Option OutboundMsg
  | .stateInit streamID key version value initialized params =>
    some (.stateInit streamID 0 key version value.toJson initialized
      (some (GoValue.map params).toJson))
  | .delta streamID entry =>
    some (.delta streamID entry.version entry.version (entry.ops.map DeltaOp.wire))
  | _ => none

/-- What the server decodes from a body of the client. Which Go type a number gets is left open. -/
structure Decoding where
  decode : Value → GoValue
  decode_string : ∀ s, decode (.string s) = .string s
  decode_object : ∀ m, decode (.object m) = .map (m.map decode)

def FrameType.ofScript : Sodp.FrameType → FrameType
  | .watch => .watch
  | .unwatch => .unwatch
  | .call => .call
  | .resume => .resume
  | .auth => .auth
  | .heartbeat => .heartbeat
  | _ => .other

def Decoding.frame (dec : Decoding) (f : Sodp.Frame) : Frame :=
  ⟨.ofScript f.frameType, f.streamId, f.seq, dec.decode f.body⟩

def Decoding.since (dec : Decoding) (conv : Conversions) (version : ℕ) : ℕ :=
  sinceVersionOf conv (some (dec.decode (.number (.int version))))

/-! ### The connection -/

structure Link where
  node : Node
  sess : Option Session
  client : SodpClient

inductive LinkEvent where
  | connect (sess : Session) (ch : Choices)
  | disconnect
  | call (ch : Choices) (f : Frame)
  | mutate (m : Mutation) (sender : String)
  | bus (e : BusEvent)

def BusEvent.betweenRequests : BusEvent → Bool
  | .subscribe .. | .unsubscribe .. | .removeSession _ | .idle _ => true
  | _ => false

def Session.drained (sess : Session) : Session :=
  { sess with queue := [], written := sess.written ++ sess.queue }

namespace Link

def start (opts : Options) (state : StateStore) (client : SodpClient) : Link :=
  ⟨⟨opts, state, .new⟩, none, client.onDisconnect⟩

def hear (conn : Conn) (client : SodpClient) : Link :=
  ⟨conn.1, some conn.2.drained, client.handleFrames (conn.2.queue.filterMap OutMsg.read)⟩

def spread (conn : Conn) (key : String) : Conn :=
  let out := conn.1.fanout.deliver key
  ({ conn.1 with fanout := out.1 },
    (out.2.filter fun msg => msg.1.sessionID = conn.2.id).foldl
      (fun sess msg => sess.post (.delta msg.1.streamID msg.2)) conn.2)

def serve (dec : Decoding) (ch : Choices) (l : Link) (f : Sodp.Frame) : Link :=
  match l.sess with
  | none => l
  | some sess => hear (dispatch ch (l.node, sess) (dec.frame f)) l.client

def step (dec : Decoding) (l : Link) : LinkEvent → Option Link
  | .connect sess ch =>
    match l.sess with
    | some _ => none
    | none => some (l.client.onReady.2.foldl (serve dec ch) ⟨l.node, some sess, l.client.onReady.1⟩)
  | .disconnect =>
    match l.sess with
    | none => none
    | some sess =>
      some ⟨{ l.node with fanout := l.node.fanout.removeSession sess.id }, none,
        l.client.onDisconnect⟩
  | .call ch f =>
    match l.sess with
    | none => none
    | some sess =>
      if f.type = .call then some (hear (spread (dispatch ch (l.node, sess) f) f.callKey) l.client)
      else none
  | .mutate m sender =>
    let node := l.node.commit m sender
    match l.sess with
    | none => some { l with node := { node with fanout := (node.fanout.deliver m.key).1 } }
    | some sess => some (hear (spread (node, sess) m.key) l.client)
  | .bus e =>
    if e.betweenRequests then
      (l.node.fanout.step e).map fun bus => { l with node := { l.node with fanout := bus } }
    else none

structure Fresh (n : Node) (sess : Session) : Prop where
  watches : sess.watches = .empty
  queue : sess.queue = []
  room : 2 ≤ sess.backpressure
  auth : n.opts.requireAuth → sess.authed
  unknown : ∀ key, ∀ sub ∈ n.fanout.subs key, sub.sessionID ≠ sess.id

structure Welcome (n : Node) (sess : Session) (client : SodpClient) (key : String) : Prop where
  valid : isValidKey key = true
  allowed : ∀ s : Session, s.id = sess.id → s.sub = sess.sub → s.claims = sess.claims →
    n.opts.Allows s key .read
  limit : (client.watches.keys.length : ℤ) ≤ sess.maxWatches

def Foreign (id : String) : BusEvent → Prop
  | .subscribe _ sub => sub.sessionID ≠ id
  | .unsubscribe _ sessionID _ => sessionID ≠ id
  | .removeSession sessionID => sessionID ≠ id
  | _ => True

/-- A RESUME of the key finds no deltas to replay, each change of the key is one that the client is
shown, and no worker reaps itself while its key is watched. -/
def Steady (dec : Decoding) (key : String) (l : Link) : LinkEvent → Prop
  | .connect sess ch =>
    Fresh l.node sess ∧ Welcome l.node sess l.client key ∧
      ∀ entry ∈ l.client.watches.get? key, 0 < entry.version →
        l.node.state.deltasSince key (dec.since ch.conversions entry.version) = none
  | .disconnect => True
  | .call ch f => ∀ m, f.Changes ch l.node.state m → m.key = key → m.Shown l.node.state
  | .mutate m sender =>
    ∀ sess ∈ l.sess, sender ≠ sess.id ∧ (m.key = key → m.Shown l.node.state)
  | .bus e => l.node.fanout.Unwatched e ∧ ∀ sess ∈ l.sess, Foreign sess.id e

end Link

/-! ### What the client asks for -/

def requestOf (watch : String × Client.WatchEntry) (streamId seq : ℕ) : Sodp.Frame :=
  if 0 < watch.2.version then
    ⟨.resume, streamId, seq, withParams [("state", .string watch.1),
      ("since_version", .number (.int watch.2.version))] watch.2.params⟩
  else ⟨.watch, streamId, seq, withParams [("state", .string watch.1)] watch.2.params⟩

def requests : List (String × Client.WatchEntry) → ℕ → ℕ → List Sodp.Frame
  | [], _, _ => []
  | watch :: watches, streamId, seq =>
    if watch.2.callbacks = 0 then requests watches streamId seq
    else requestOf watch streamId seq :: requests watches (streamId + 1) (seq + 1)

theorem foldl_resubscribe_requests (watches : List (String × Client.WatchEntry))
    (acc : SodpClient × List Sodp.Frame) : (watches.foldl SodpClient.resubscribe acc).2 =
      acc.2 ++ requests watches acc.1.nextStreamId (acc.1.nextSeq + 1) := by
  induction watches generalizing acc with
  | nil => exact (append_nil _).symm
  | cons watch watches ih =>
    rw [foldl_cons, ih, requests, SodpClient.resubscribe]
    by_cases hcallbacks : watch.2.callbacks = 0
    · rw [if_pos hcallbacks, if_pos hcallbacks]
    · rw [if_neg hcallbacks, if_neg hcallbacks, requestOf]
      by_cases hversion : 0 < watch.2.version
      · rw [if_pos hversion, if_pos hversion, append_cons]
        rfl
      · rw [if_neg hversion, if_neg hversion, append_cons]
        rfl

theorem onReady_requests (c : SodpClient) :
    c.onReady.2 = requests c.watches.toList c.nextStreamId (c.nextSeq + 1) :=
  (foldl_resubscribe_requests _ _).trans (nil_append _)

section Bodies
variable (dec : Decoding) (conv : Conversions) {key : String}

theorem decodeWatchBody_object {m : OrderedMap String Value} {since : ℕ}
    (hstate : m.get? "state" = some (.string key)) (hstates : m.get? "states" = none)
    (hsince : sinceVersionOf conv ((m.get? "since_version").map dec.decode) = since) :
    ∃ params, decodeWatchBody conv (dec.decode (.object m)) =
      if key = "" then none else some ⟨key, [], since, params⟩ := by
  refine ⟨mapOf ((m.get? "params").map dec.decode), ?_⟩
  rw [dec.decode_object, decodeWatchBody]
  simp only [get?_map, hstate, hstates, hsince, map_some, map_none,
    dec.decode_string, asString, stringsOf, and_true]

theorem decodeWatchBody_request (entry : Client.WatchEntry) (streamId seq : ℕ) :
    ∃ params, decodeWatchBody conv (dec.frame (requestOf (key, entry) streamId seq)).body =
      if key = "" then none
      else some ⟨key, [], if 0 < entry.version then dec.since conv entry.version else 0,
        params⟩ := by
  rw [requestOf]
  by_cases hversion : 0 < entry.version
  · rw [if_pos hversion, if_pos hversion]
    refine decodeWatchBody_object dec conv ?_ ?_ ?_
    · cases entry.params <;> simp [get?_insert]
    · cases entry.params <;> simp [get?_insert]
    · cases entry.params <;> simp [get?_insert, Decoding.since]
  · rw [if_neg hversion, if_neg hversion]
    refine decodeWatchBody_object dec conv ?_ ?_ ?_
    · cases entry.params <;> simp [get?_insert]
    · cases entry.params <;> simp [get?_insert]
    · cases entry.params <;> simp [get?_insert, sinceVersionOf]

end Bodies

/-! ### What the server answers -/

inductive Answer (c : Conn) (streamID : ℕ) (key : String) : Conn → Prop where
  | refused (code : ℤ) (message : String) :
      Answer c streamID key (c.1, c.2.sendError streamID code message)
  | snapshot (params : OrderedMap String GoValue) :
      Answer c streamID key (sendStateInit (openWatch c streamID key) streamID key params)
  | replay (deltas : List DeltaEntry) :
      Answer c streamID key ((openWatch c streamID key).1,
        deltas.foldl (fun sess d => sess.post (.delta streamID d)) (openWatch c streamID key).2)

theorem authorizeKey_of_allows {opts : Options} {sess : Session} {key : String} {action : Action}
    (h : opts.Allows sess key action) (streamID : ℕ) :
    authorizeKey opts sess streamID key action = (sess, true) := by
  rw [authorizeKey]
  cases hauth : opts.authorizeKey with
  | none => rfl
  | some f => exact if_pos (h f hauth)

section Answers
variable {ch : Choices} {c : Conn} {f : Frame} {key : String} {since : ℕ}
  {params : OrderedMap String GoValue}

section
variable (hbody : decodeWatchBody ch.conversions f.body = some ⟨key, [], since, params⟩)
include hbody

theorem handleWatch_single
    (hkey : key ≠ "") : handleWatch ch c f = watchKeys f params false 0 [key] c := by
  have hkeys : WatchBody.keys ⟨key, [], since, params⟩ = [key] := if_pos ⟨rfl, hkey⟩
  rw [handleWatch, hbody]
  dsimp only
  rw [hkeys, if_neg (cons_ne_nil _ _)]
  rfl

theorem handleWatch_answer
    (hkey : key ≠ "") (hstream : f.streamID ≠ 0) : Answer c f.streamID key (handleWatch ch c f) ∧
      (isValidKey key = true → c.1.opts.Allows c.2 key .read →
        c.2.watches.keys.length < c.2.maxWatches →
        handleWatch ch c f = sendStateInit (openWatch c f.streamID key) f.streamID key params) := by
  have hpick : pickStream c.2 f false 0 = (c.2, f.streamID) :=
    if_neg fun h => h.2 ⟨rfl, hstream⟩
  rw [handleWatch_single hbody hkey, watchKeys]
  by_cases hvalid : isValidKey key = true
  swap
  · rw [if_pos hvalid]
    exact ⟨.refused _ _, fun h => absurd h hvalid⟩
  rw [if_neg (not_not_intro hvalid)]
  rcases authorizeKey_cases c.1.opts c.2 f.streamID key .read with
    ⟨hverdict, -⟩ | ⟨code, message, hverdict⟩
  swap
  · rw [hverdict]
    refine ⟨.refused _ _, fun _ hallow => ?_⟩
    rw [authorizeKey_of_allows hallow] at hverdict
    cases congrArg Prod.snd hverdict
  rw [hverdict]
  rw [if_neg (not_not_intro rfl), hpick]
  dsimp only
  rw [Session.addWatch]
  split_ifs with hlimit
  · exact ⟨.refused _ _, fun _ _ h => absurd h (not_lt.mpr hlimit)⟩
  · exact ⟨.snapshot params, fun _ _ _ => rfl⟩

theorem handleResume_answer
    (hkey : key ≠ "") (hstream : f.streamID ≠ 0) : Answer c f.streamID key (handleResume ch c f) ∧
      (isValidKey key = true → c.1.opts.Allows c.2 key .read →
        c.2.watches.keys.length < c.2.maxWatches → c.1.state.deltasSince key since = none →
        handleResume ch c f =
          sendStateInit (openWatch c f.streamID key) f.streamID key params) := by
  obtain ⟨hanswer, hsnapshot⟩ := handleWatch_answer (c := c) hbody hkey hstream
  rw [handleResume, hbody]
  dsimp only
  by_cases hvalid : isValidKey key = true
  swap
  · rw [if_pos hvalid]
    exact ⟨.refused _ _, fun h => absurd h hvalid⟩
  rw [if_neg (not_not_intro hvalid)]
  rcases authorizeKey_cases c.1.opts c.2 f.streamID key .read with
    ⟨hverdict, -⟩ | ⟨code, message, hverdict⟩
  swap
  · rw [hverdict]
    refine ⟨.refused _ _, fun _ hallow => ?_⟩
    rw [authorizeKey_of_allows hallow] at hverdict
    cases congrArg Prod.snd hverdict
  rw [hverdict]
  dsimp only
  rw [if_neg (not_not_intro rfl)]
  cases hsince : c.1.state.deltasSince key since with
  | none => exact ⟨hanswer, fun hvalid hallow hlimit _ => hsnapshot hvalid hallow hlimit⟩
  | some deltas =>
    refine ⟨?_, fun _ _ _ h => by cases h⟩
    dsimp only
    rw [if_neg hstream]
    dsimp only
    rw [Session.addWatch]
    split_ifs
    · exact .refused _ _
    · exact .replay deltas

end

theorem checkAuth_passes {opts : Options} {sess : Session} (h : opts.requireAuth → sess.authed) :
    (checkAuth opts sess).2 = true := by
  rw [checkAuth]
  split_ifs with hpass
  · rfl
  · rw [not_or, not_not] at hpass
    exact absurd (h hpass.1) hpass.2

theorem dispatch_request (dec : Decoding) (ch : Choices)
    (hauth : c.1.opts.requireAuth → c.2.authed) (key : String) {streamId : ℕ}
    (hstream : streamId ≠ 0) (entry : Client.WatchEntry) (seq : ℕ) :
    Answer c streamId key (dispatch ch c (dec.frame (requestOf (key, entry) streamId seq))) ∧
      (isValidKey key = true → c.1.opts.Allows c.2 key .read →
        c.2.watches.keys.length < c.2.maxWatches → (0 < entry.version →
          c.1.state.deltasSince key (dec.since ch.conversions entry.version) = none) →
        ∃ params, dispatch ch c (dec.frame (requestOf (key, entry) streamId seq)) =
          sendStateInit (openWatch c streamId key) streamId key params) := by
  obtain ⟨params, hbody⟩ := decodeWatchBody_request dec ch.conversions entry streamId seq
  have hpass := checkAuth_passes hauth
  have hid : (dec.frame (requestOf (key, entry) streamId seq)).streamID = streamId := by
    rw [requestOf]
    split_ifs <;> rfl
  have hdispatch : dispatch ch c (dec.frame (requestOf (key, entry) streamId seq)) =
      if 0 < entry.version then handleResume ch c (dec.frame (requestOf (key, entry) streamId seq))
      else handleWatch ch c (dec.frame (requestOf (key, entry) streamId seq)) := by
    rw [requestOf]
    split_ifs <;> exact if_pos hpass
  rw [hdispatch]
  generalize dec.frame (requestOf (key, entry) streamId seq) = f at *
  subst hid
  by_cases hkey : key = ""
  · rw [if_pos hkey] at hbody
    refine ⟨?_, fun hvalid => ?_⟩
    · rw [handleResume, handleWatch, hbody]
      split_ifs <;> exact .refused _ _
    · rw [hkey] at hvalid
      exact absurd hvalid (by decide)
  · rw [if_neg hkey] at hbody
    split_ifs with hversion
    · obtain ⟨hanswer, hsnapshot⟩ := handleResume_answer (c := c) hbody hkey hstream
      rw [if_pos hversion] at hsnapshot
      exact ⟨hanswer, fun hvalid hallow hlimit hsince =>
        ⟨params, hsnapshot hvalid hallow hlimit (hsince hversion)⟩⟩
    · obtain ⟨hanswer, hsnapshot⟩ := handleWatch_answer (c := c) hbody hkey hstream
      exact ⟨hanswer, fun hvalid hallow hlimit _ => ⟨params, hsnapshot hvalid hallow hlimit⟩⟩

end Answers

/-! ### What the client makes of messages -/

def hears (c : SodpClient) (msg : OutMsg) : SodpClient :=
  match msg.read with
  | none => c
  | some frame => c.handleFrame frame

theorem handleFrames_read (c : SodpClient) (msgs : List OutMsg) :
    c.handleFrames (msgs.filterMap OutMsg.read) = msgs.foldl hears c := by
  induction msgs generalizing c with
  | nil => rfl
  | cons msg msgs ih =>
    rw [foldl_cons, ← ih, hears]
    cases hread : msg.read with
    | none => rw [filterMap_cons_none hread]
    | some =>
      rw [filterMap_cons_some hread]
      rfl

def OutMsg.For (watches : OrderedMap ℕ String) (P : String → Prop) : OutMsg → Prop
  | .stateInit streamID key .. => watches.get? streamID = some key ∧ P key
  | .delta streamID _ => ∃ key, watches.get? streamID = some key ∧ P key
  | _ => True

def Bound (watches : OrderedMap ℕ String) (c : SodpClient) : Prop :=
  ∀ streamID key, c.streamToKey.get? streamID = some key → watches.get? streamID = some key

def Watching (key : String) (c : SodpClient) : Prop :=
  ∃ entry, c.watches.get? key = some entry ∧ 0 < entry.callbacks

section Hears
variable {watches : OrderedMap ℕ String} {P : String → Prop} {c : SodpClient} {key : String}

theorem Bound.hears (h : Bound watches c) {msg : OutMsg} (hmsg : msg.For watches P) :
    Bound watches (hears c msg) := by
  intro s k hk
  cases msg with
  | stateInit =>
    rw [GoServer.hears, OutMsg.read, SodpClient.streamToKey_stateInit] at hk
    split_ifs at hk with hs
    · rw [hs.1, ← some.inj hk]
      exact hmsg.1
    · exact h s k hk
  | delta =>
    rw [GoServer.hears, OutMsg.read, SodpClient.streamToKey_delta] at hk
    exact h s k hk
  | _ => exact h s k hk

theorem Watching.setEntry {entry next : Client.WatchEntry} {name : String} (h : Watching key c)
    (hentry : c.watches.get? name = some entry) (hnext : next.callbacks = entry.callbacks) :
    Watching key (c.setEntry name next) := by
  obtain ⟨old, hold, hpos⟩ := h
  rw [Watching, SodpClient.get?_setEntry]
  split_ifs with hkey
  · refine ⟨next, rfl, ?_⟩
    rw [← hkey, hold, some.injEq] at hentry
    rw [hnext, ← hentry]
    exact hpos
  · exact ⟨old, hold, hpos⟩

theorem Watching.hears (h : Watching key c) (msg : OutMsg) : Watching key (hears c msg) := by
  cases msg with
  | stateInit streamID name version value initialized =>
    change Watching key (c.onStateInit streamID name version _ initialized)
    rw [SodpClient.onStateInit]
    cases hentry : c.watches.get? name with
    | none => exact h
    | some =>
      exact Watching.setEntry (c := { c with streamToKey := c.streamToKey.insert streamID name }) h
        hentry rfl
  | delta streamID delta =>
    change Watching key (c.onDelta streamID delta.version _)
    rw [SodpClient.onDelta]
    cases c.keyOf streamID with
    | none => exact h
    | some name =>
      dsimp only
      cases hentry : c.watches.get? name with
      | none => exact h
      | some entry =>
        dsimp only
        cases Client.applyOps entry.value (delta.ops.map DeltaOp.wire) with
        | error => exact h
        | ok => exact h.setEntry hentry rfl
  | _ => exact h

theorem shows_hears_stateInit (h : Watching key c) (streamID version : ℕ) (value : GoValue)
    (initialized : Bool) (params : OrderedMap String GoValue) :
    (hears c (.stateInit streamID key version value initialized params)).Shows streamID key
      (.ofJson value.toJson) := by
  obtain ⟨_, hentry, -⟩ := h
  exact SodpClient.shows_stateInit (by rw [hentry]; rfl) streamID 0 version value.toJson initialized
    (some (GoValue.map params).toJson)

theorem shows_hears {sid : ℕ} {v : JsValue} (h : c.Shows sid key v) (hbound : Bound watches c)
    (hsid : watches.get? sid = some key) {msg : OutMsg} (hmsg : msg.For watches (· ≠ key)) :
    (hears c msg).Shows sid key v := by
  cases msg with
  | stateInit =>
    simp only [GoServer.hears, OutMsg.read]
    refine h.stateInit_of_ne (fun hs => ?_) (Ne.symm hmsg.2) _ _ _ _ _
    rw [hs, hmsg.1] at hsid
    exact hmsg.2 (some.inj hsid)
  | delta streamID =>
    obtain ⟨name, hname, hne⟩ := hmsg
    simp only [GoServer.hears, OutMsg.read]
    cases hstream : c.streamToKey.get? streamID with
    | none =>
      rw [SodpClient.handleFrame_delta_of_unbound hstream]
      exact h
    | some other =>
      have hother : other = name := some.inj ((hbound _ _ hstream).symm.trans hname)
      exact h.delta_of_ne (hother ▸ hstream) (Ne.symm hne) _ _ _
  | _ => exact h

section Lists
variable {msgs : List OutMsg}

theorem Bound.foldl_hears (h : Bound watches c) (hmsgs : ∀ msg ∈ msgs, msg.For watches P) :
    Bound watches (msgs.foldl GoServer.hears c) := by
  induction msgs generalizing c with
  | nil => exact h
  | cons msg msgs ih =>
    exact ih (h.hears (hmsgs msg mem_cons_self)) fun m hm =>
      hmsgs m (mem_cons_of_mem msg hm)

theorem Watching.foldl_hears (h : Watching key c) (msgs : List OutMsg) :
    Watching key (msgs.foldl GoServer.hears c) := by
  induction msgs generalizing c with
  | nil => exact h
  | cons msg msgs ih => exact ih (h.hears msg)

theorem shows_foldl_hears {sid : ℕ} {v : JsValue} (h : c.Shows sid key v)
    (hbound : Bound watches c) (hsid : watches.get? sid = some key)
    (hmsgs : ∀ msg ∈ msgs, msg.For watches (· ≠ key)) :
    (msgs.foldl GoServer.hears c).Shows sid key v := by
  induction msgs generalizing c with
  | nil => exact h
  | cons msg msgs ih =>
    have hmsg := hmsgs msg mem_cons_self
    exact ih (shows_hears h hbound hsid hmsg) (hbound.hears hmsg) fun m hm =>
      hmsgs m (mem_cons_of_mem msg hm)

end Lists

end Hears

end Sodp.GoServer
