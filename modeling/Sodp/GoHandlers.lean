import Sodp.GoStore
import Sodp.GoFanout
import Sodp.GoSession

/-!
# Frame handlers of the Go server

`dispatch` of `server.go` and the handlers it calls, for one frame of one session. What the source
leaves open is in `Choices`: the clock, the orders in which maps are ranged over, and conversions
out of range. `jwt` gives the claims of a valid token.

A handler is a sequence of a few acts (`Act`), each of them done only when the checks in front of
it have passed.
-/

namespace Sodp.GoServer
open Transition List Option
open OrderedMap hiding keys

structure Choices where
  now : ℤ
  diffs : List String → KeyOrder String
  streams : ℕ → KeyOrder ℕ
  conversions : Conversions

def Choices.plain : Choices := ⟨1, fun _ => .sorted, fun _ => .sorted, ⟨fun _ => 0, fun _ => 0⟩⟩

structure Options where
  requireAuth : Bool
  jwt : Option (String → Option (OrderedMap String GoValue))
  authorizeKey : Option (Session → String → Action → Bool × ℤ × String)
  maxSessions : ℕ
  rateLimit : ℤ
  maxWatches : ℤ
  backpressure : ℕ

structure Node where
  opts : Options
  state : StateStore
  fanout : FanoutBus

/-! ### Values of calls -/

def mergeMaps : GoValue → GoValue → GoValue
  | .map current, .map patch =>
    .map (patch.toList.foldl (fun merged field => merged.insert field.1 field.2) current)
  | _, patch => patch

def setInParts (value : GoValue) :
    OrderedMap String GoValue → List String → OrderedMap String GoValue
  | target, [] => target
  | target, [p] => target.insert p value
  | target, p :: parts => target.insert p (.map (setInParts value (mapOf (target.get? p)) parts))

def setInMap (current : GoValue) (path : String) (value : GoValue) : GoValue :=
  .map (setInParts value (mapOf (some current)) (dotParts path))

def maxLenOf (c : Conversions) : Option GoValue → ℤ
  | some (.scalar (.int i)) => if i.kind = .int64 then i.val else 0
  | some (.scalar (.float .float64 q)) => c.int q
  | _ => 0

def callMutation (ch : Choices) (state : StateStore) (key : String) (body : CallBody) :
    Except String Mutation :=
  let arg := fun name => (body.args.get? name).getD .nil
  if body.method = "state.set" then .ok (.apply ch.diffs key (arg "value"))
  else if body.method = "state.patch" then
    .ok (.apply ch.diffs key (mergeMaps (state.get key).1 (arg "patch")))
  else if body.method = "state.set_in" then
    let path := asString (body.args.get? "path")
    if path = "" then .error "path required for state.set_in"
    else .ok (.apply ch.diffs key (setInMap (state.get key).1 path (arg "value")))
  else if body.method = "state.delete" then .ok (.delete key)
  else if body.method = "state.append" then
    .ok (.append key (arg "value") (maxLenOf ch.conversions (body.args.get? "max_len")))
  else .error ("unknown method: " ++ body.method)

/-! ### Handlers -/

def authorizeKey (opts : Options) (sess : Session) (streamID : ℕ) (key : String) (action : Action) :
    Session × Bool :=
  match opts.authorizeKey with
  | none => (sess, true)
  | some f =>
    let verdict := f sess key action
    if verdict.1 then (sess, true) else (sess.sendError streamID verdict.2.1 verdict.2.2, false)

def checkAuth (opts : Options) (sess : Session) : Session × Bool :=
  if ¬ opts.requireAuth ∨ sess.authed then (sess, true)
  else (sess.sendError 0 401 "authentication required", false)

def handleAuth (opts : Options) (sess : Session) (f : Frame) : Session :=
  if sess.authed then sess.sendError 0 400 "already authenticated"
  else match opts.jwt with
  | none => sess.markAuthenticated.post (.authOK "anonymous")
  | some validate =>
    match decodeAuthBody f.body with
    | none => sess.sendError 0 400 "invalid auth body"
    | some token =>
      match validate token with
      | none => sess.sendError 0 401 "invalid token"
      | some claims =>
        let sub := asString (claims.get? "sub")
        (sess.setAuth sub claims).post (.authOK sub)

abbrev Conn := Node × Session

def openWatch (c : Conn) (streamID : ℕ) (key : String) : Conn :=
  ({ c.1 with fanout := c.1.fanout.subscribe key ⟨c.2.id, streamID⟩ },
    { c.2 with watches := c.2.watches.insert streamID key })

def sendStateInit (c : Conn) (streamID : ℕ) (key : String) (params : OrderedMap String GoValue) :
    Conn :=
  let current := c.1.state.get key
  let initialized := match current.1 with | .nil => false | _ => true
  (c.1, c.2.post (.stateInit streamID key current.2 current.1 initialized params))

def pickStream (sess : Session) (f : Frame) (multi : Bool) (i : ℕ) : Session × ℕ :=
  if (multi ∨ f.streamID = 0) ∧ ¬(i = 0 ∧ f.streamID ≠ 0) then sess.allocStream
  else (sess, f.streamID)

def watchKeys (f : Frame) (params : OrderedMap String GoValue) (multi : Bool) :
    ℕ → List String → Conn → Conn
  | _, [], c => c
  | i, key :: keys, c =>
    if ¬ isValidKey key then (c.1, c.2.sendError f.streamID 400 ("invalid key: " ++ key))
    else
      let verdict := authorizeKey c.1.opts c.2 f.streamID key .read
      if ¬ verdict.2 then (c.1, verdict.1)
      else
        let picked := pickStream verdict.1 f multi i
        match picked.1.addWatch picked.2 key with
        | none => (c.1, picked.1.sendError f.streamID 429 "watch limit reached")
        | some _ =>
          watchKeys f params multi (i + 1) keys
            (sendStateInit (openWatch (c.1, picked.1) picked.2 key) picked.2 key params)

def WatchBody.keys (body : WatchBody) : List String :=
  if body.states = [] ∧ body.key ≠ "" then [body.key] else body.states

def handleWatch (ch : Choices) (c : Conn) (f : Frame) : Conn :=
  match decodeWatchBody ch.conversions f.body with
  | none => (c.1, c.2.sendError f.streamID 400 "invalid watch body")
  | some body =>
    if body.keys = [] then (c.1, c.2.sendError f.streamID 400 "missing state key")
    else watchKeys f body.params (1 < body.keys.length) 0 body.keys c

def closeWatch (c : Conn) (streamID : ℕ) (key : String) : Conn :=
  ({ c.1 with fanout := c.1.fanout.unsubscribe key c.2.id streamID },
    { c.2 with watches := c.2.watches.erase streamID })

def unwatchKeysOf : GoValue → List String
  | .map m =>
    (if asString (m.get? "state") = "" then [] else [asString (m.get? "state")]) ++
      stringsOf (m.get? "states")
  | _ => []

def unwatchKeys (ch : Choices) : ℕ → List String → Conn → Conn
  | _, [], c => c
  | i, key :: keys, c =>
    let sid := c.2.streamForKey (ch.streams i) key
    unwatchKeys ch (i + 1) keys (if sid = 0 then c else closeWatch c sid key)

def handleUnwatch (ch : Choices) (c : Conn) (f : Frame) : Conn :=
  if f.streamID ≠ 0 then
    match c.2.watches.get? f.streamID with
    | none => c
    | some key => closeWatch c f.streamID key
  else unwatchKeys ch 0 (unwatchKeysOf f.body) c

def sendDeltaDirect (sess : Session) (range : KeyOrder ℕ) (delta : DeltaEntry) : Session :=
  let sid := sess.streamForKey range delta.key
  if sid = 0 then sess else sess.post (.delta sid delta)

def Node.commit (n : Node) (m : Mutation) (sender : String) : Node :=
  let applied := m.run n.state
  match applied.2 with
  | none => { n with state := applied.1 }
  | some delta =>
    { n with state := applied.1, fanout := (n.fanout.broadcast delta sender).1 }

def change (c : Conn) (m : Mutation) (f : Frame) (callID : GoValue) (range : KeyOrder ℕ) : Conn :=
  let delta := (m.run c.1.state).2
  let sess := c.2.post (.result f.streamID f.seq callID (delta.map DeltaEntry.version))
  (c.1.commit m c.2.id,
    match delta with
    | none => sess
    | some delta => sendDeltaDirect sess range delta)

def handleCall (ch : Choices) (c : Conn) (f : Frame) : Conn :=
  let rated := c.2.checkRate ch.now
  if ¬ rated.2 then (c.1, rated.1.sendError f.streamID 429 "rate limit exceeded")
  else match decodeCallBody f.body with
  | none => (c.1, rated.1.sendError f.streamID 400 "invalid call body")
  | some body =>
    let key := asString (body.args.get? "state")
    if key = "" then (c.1, rated.1.sendError f.streamID 400 "missing state key in args")
    else if ¬ isValidKey key then (c.1, rated.1.sendError f.streamID 400 "invalid key")
    else
      let verdict := authorizeKey c.1.opts rated.1 f.streamID key .write
      if ¬ verdict.2 then (c.1, verdict.1)
      else match callMutation ch c.1.state key body with
      | .error message => (c.1, verdict.1.sendError f.streamID 400 message)
      | .ok m => change (c.1, verdict.1) m f body.callID (ch.streams 0)

def handleResume (ch : Choices) (c : Conn) (f : Frame) : Conn :=
  match decodeWatchBody ch.conversions f.body with
  | none => (c.1, c.2.sendError f.streamID 400 "invalid resume body")
  | some body =>
    if ¬ isValidKey body.key then (c.1, c.2.sendError f.streamID 400 "invalid key")
    else
      let verdict := authorizeKey c.1.opts c.2 f.streamID body.key .read
      if ¬ verdict.2 then (c.1, verdict.1)
      else match c.1.state.deltasSince body.key body.sinceVersion with
      | none => handleWatch ch (c.1, verdict.1) f
      | some deltas =>
        let picked := if f.streamID = 0 then verdict.1.allocStream else (verdict.1, f.streamID)
        match picked.1.addWatch picked.2 body.key with
        | none => (c.1, picked.1.sendError f.streamID 429 "watch limit reached")
        | some _ =>
          let opened := openWatch (c.1, picked.1) picked.2 body.key
          (opened.1, deltas.foldl (fun sess d => sess.post (.delta picked.2 d)) opened.2)

def dispatch (ch : Choices) (c : Conn) (f : Frame) : Conn :=
  let checked := checkAuth c.1.opts c.2
  match f.type with
  | .auth => (c.1, handleAuth c.1.opts c.2 f)
  | .watch => if checked.2 then handleWatch ch c f else (c.1, checked.1)
  | .unwatch => handleUnwatch ch c f
  | .call => if checked.2 then handleCall ch c f else (c.1, checked.1)
  | .resume => if checked.2 then handleResume ch c f else (c.1, checked.1)
  | .heartbeat => (c.1, c.2.post (.heartbeat f.seq))
  | .other => (c.1, c.2.sendError f.streamID 400 "unknown frame type")

/-! ### Acts -/

inductive Act where
  | say (msg : OutMsg)
  | rate (count reset : ℤ)
  | mark
  | login (sub : String) (claims : OrderedMap String GoValue)
  | alloc
  | watch (fresh : Bool) (streamID : ℕ) (key : String)
  | init (streamID : ℕ) (key : String) (params : OrderedMap String GoValue)
  | replay (streamID : ℕ) (entry : DeltaEntry)
  | unwatch (streamID : ℕ) (key : String)
  | change (m : Mutation) (f : Frame) (callID : GoValue) (range : KeyOrder ℕ)

def Options.Allows (opts : Options) (sess : Session) (key : String) (action : Action) : Prop :=
  ∀ f ∈ opts.authorizeKey, (f sess key action).1 = true

namespace Act

def run (c : Conn) : Act → Conn
  | .say msg => (c.1, c.2.post msg)
  | .rate count reset => (c.1, { c.2 with rateCount := count, rateReset := reset })
  | .mark => (c.1, c.2.markAuthenticated)
  | .login sub claims => (c.1, c.2.setAuth sub claims)
  | .alloc => (c.1, c.2.allocStream.1)
  | .watch fresh streamID key =>
    openWatch (c.1, if fresh then c.2.allocStream.1 else c.2) streamID key
  | .init streamID key params => sendStateInit c streamID key params
  | .replay streamID entry => (c.1, c.2.post (.delta streamID entry))
  | .unwatch streamID key => closeWatch c streamID key
  | .change m f callID range => GoServer.change c m f callID range

def Allowed (c : Conn) : Act → Prop
  | .say msg => msg.shows = none
  | .rate _ _ => True
  | .mark => c.2.authed = false ∧ c.1.opts.jwt = none
  | .login sub claims => c.2.authed = false ∧ sub = asString (claims.get? "sub")
  | .alloc => True
  | .watch fresh streamID key =>
    (c.1.opts.requireAuth → c.2.authed) ∧ c.1.opts.Allows c.2 key .read ∧
      (fresh → streamID = c.2.nextStream)
  | .init streamID key _ => c.2.watches.get? streamID = some key
  | .replay streamID entry =>
    ∃ key, c.2.watches.get? streamID = some key ∧ entry ∈ (c.1.state.ring key).entries
  | .unwatch streamID key => c.2.watches.get? streamID = some key
  | .change m _ _ _ =>
    (c.1.opts.requireAuth → c.2.authed) ∧ c.1.opts.Allows c.2 m.key .write

def Quiet : Act → Prop
  | .replay _ _ | .change .. => False
  | _ => True

def opens : Act → Option (ℕ × String)
  | .watch _ streamID key => some (streamID, key)
  | _ => none

end Act

def Act.step (c : Conn) (act : Act) : Option Conn := some (act.run c)

def Acts (c : Conn) (acts : List Act) (d : Conn) : Prop :=
  Along Act.step Act.Allowed c acts ∧ run Act.step c acts = some d

theorem Acts.nil (c : Conn) : Acts c [] c := ⟨trivial, rfl⟩

variable {c : Conn} {acts : List Act} {d : Conn}

theorem Acts.cons {act : Act} (hact : act.Allowed c)
    (hrest : Acts (act.run c) acts d) : Acts c (act :: acts) d := ⟨⟨hact, hrest.1⟩, hrest.2⟩

theorem Acts.single {act : Act} (hact : act.Allowed c) : Acts c [act] (act.run c) :=
  .cons hact (.nil _)

variable {ok : Conn → Act → Prop} {I : Conn → Prop}

theorem Acts.invariant_along
    (hstep : ∀ (c : Conn) (act : Act), I c → act.Allowed c → ok c act → I (act.run c))
    (h : Acts c acts d) (hok : Along Act.step ok c acts) (hc : I c) : I d := by
  have hboth : Along Act.step (fun c act => act.Allowed c ∧ ok c act) c acts := h.1.and hok
  refine Transition.invariant_along ?_ hc hboth h.2
  intro c act d hc hact hd
  rw [Act.step, Option.some.injEq] at hd
  exact hd ▸ hstep c act hc hact.1 hact.2

theorem Acts.invariant
    (hstep : ∀ (c : Conn) (act : Act), I c → act.Allowed c → I (act.run c)) (h : Acts c acts d)
    (hc : I c) : I d := by
  have htrue : Along Act.step (fun _ _ => True) c acts := along_of_forall (fun _ _ => trivial) _ _
  exact h.invariant_along (fun c act hc hact _ => hstep c act hc hact) htrue hc

/-- What a handler opens is free when it comes to it, if all of it is free before the handler starts
and no two of the opened streams are the same in this respect. -/
theorem along_of_opens {α : Type} {Q : Act → Prop} {F : Conn → α → Prop}
    {proj : ℕ × String → α} (hkeep : ∀ (c : Conn) (act : Act) (x : α), Q act →
      (∀ opened, act.opens = some opened → proj opened ≠ x) → F c x → F (act.run c) x)
    (hnone : ∀ (c : Conn) (act : Act), Q act → act.opens = none → ok c act)
    (hopen : ∀ (c : Conn) (act : Act) (opened : ℕ × String), act.opens = some opened →
      F c (proj opened) → ok c act) (hQ : ∀ act ∈ acts, Q act)
    (hnodup : ((acts.filterMap Act.opens).map proj).Nodup)
    (hfree : ∀ x ∈ (acts.filterMap Act.opens).map proj, F c x) : Along Act.step ok c acts := by
  induction acts generalizing c with
  | nil => trivial
  | cons act acts ih =>
    obtain ⟨hact, hQ⟩ := forall_mem_cons.mp hQ
    cases hopened : act.opens with
    | none =>
      rw [filterMap_cons_none hopened] at hnodup hfree
      refine ⟨hnone c act hact hopened, ih hQ hnodup fun x hx => ?_⟩
      exact hkeep c act x hact (fun o ho => by rw [hopened] at ho; cases ho) (hfree x hx)
    | some opened =>
      rw [filterMap_cons_some hopened, map_cons] at hnodup hfree
      obtain ⟨hnot, hrest⟩ := nodup_cons.mp hnodup
      refine ⟨hopen c act opened hopened (hfree _ mem_cons_self), ih hQ hrest fun x hx => ?_⟩
      refine hkeep c act x hact ?_ (hfree x (mem_cons_of_mem _ hx))
      rintro o ho rfl
      rw [hopened, some.injEq] at ho
      exact hnot (ho ▸ hx)

theorem Acts.say {msg : OutMsg} (hmsg : msg.shows = none) :
    Acts c [.say msg] (c.1, c.2.post msg) :=
  .cons hmsg (.nil _)

section Handlers
variable {ch : Choices} {c : Conn} {f : Frame}

theorem authorizeKey_cases (opts : Options) (sess : Session) (streamID : ℕ) (key : String)
    (action : Action) :
    (authorizeKey opts sess streamID key action = (sess, true) ∧ opts.Allows sess key action) ∨
      ∃ code message,
        authorizeKey opts sess streamID key action =
          (sess.sendError streamID code message, false) := by
  rw [authorizeKey]
  cases hauth : opts.authorizeKey with
  | none => exact .inl ⟨rfl, fun f hf => by rw [hauth] at hf; cases hf⟩
  | some =>
    dsimp only
    split_ifs with hverdict
    · refine .inl ⟨rfl, fun g hg => ?_⟩
      rw [hauth, mem_some_iff] at hg
      exact hg ▸ hverdict
    · exact .inr ⟨_, _, rfl⟩

theorem checkAuth_cases (opts : Options) (sess : Session) :
    (checkAuth opts sess = (sess, true) ∧ (opts.requireAuth → sess.authed)) ∨
      checkAuth opts sess = (sess.sendError 0 401 "authentication required", false) := by
  rw [checkAuth]
  split_ifs with h
  · refine .inl ⟨rfl, fun hreq => ?_⟩
    rcases h with h | h
    · exact absurd hreq h
    · exact h
  · exact .inr rfl

def allocs : ℕ → ℕ → List ℕ
  | _, 0 => []
  | next, n + 1 => next :: allocs ((next + 1) % 2 ^ 32) n

def idsFrom (streamID i next : ℕ) : ℕ → List ℕ
  | 0 => []
  | n + 1 => if i = 0 ∧ streamID ≠ 0 then streamID :: allocs next n else allocs next (n + 1)

def Frame.watchKeys (conv : Conversions) (f : Frame) : List String :=
  match decodeWatchBody conv f.body with
  | none => []
  | some body => body.keys

def Frame.streamIDs (conv : Conversions) (f : Frame) (next : ℕ) : List ℕ :=
  match decodeWatchBody conv f.body with
  | none => []
  | some body => idsFrom f.streamID 0 next body.keys.length

theorem pickStream_spec {sess : Session} {multi : Bool} {i : ℕ} (hmulti : i ≠ 0 → multi = true)
    (n : ℕ) : ∃ fresh streamID,
      pickStream sess f multi i = (if fresh then sess.allocStream.1 else sess, streamID) ∧
      (fresh = true → streamID = sess.nextStream) ∧ idsFrom f.streamID i sess.nextStream (n + 1) =
        streamID :: allocs (if fresh then sess.allocStream.1 else sess).nextStream n := by
  rw [pickStream, idsFrom]
  by_cases hi : i = 0 ∧ f.streamID ≠ 0
  · refine ⟨false, f.streamID, ?_, Bool.noConfusion, ?_⟩
    · exact if_neg fun h => h.2 hi
    · exact if_pos hi
  · have hcond : (multi = true ∨ f.streamID = 0) ∧ ¬(i = 0 ∧ f.streamID ≠ 0) := by
      refine ⟨?_, hi⟩
      rw [not_and_or, not_not] at hi
      exact hi.imp hmulti id
    refine ⟨true, sess.nextStream, ?_, fun _ => rfl, ?_⟩
    · exact if_pos hcond
    · exact if_neg hi

theorem idsFrom_succ (streamID i next n : ℕ) : idsFrom streamID (i + 1) next n = allocs next n := by
  cases n with
  | zero => rfl
  | succ =>
    rw [idsFrom, if_neg]
    exact fun h => absurd h.1 (Nat.succ_ne_zero i)

theorem refused_acts (c : Conn) (fresh : Bool) (msg : OutMsg) (hmsg : msg.shows = none) :
    ∃ acts, Acts c acts (c.1, (if fresh then c.2.allocStream.1 else c.2).post msg) ∧
      acts.filterMap Act.opens = [] ∧ ∀ act ∈ acts, act.Quiet := by
  cases fresh with
  | false => exact ⟨[.say msg], Acts.say hmsg, rfl, by simp [Act.Quiet]⟩
  | true =>
    exact ⟨[.alloc, .say msg], .cons trivial (Acts.say hmsg), rfl, by simp [Act.Quiet]⟩

theorem sendStateInit_openWatch (c : Conn) (fresh : Bool) (streamID : ℕ) (key : String)
    (params : OrderedMap String GoValue) :
    let d := sendStateInit ((Act.watch fresh streamID key).run c) streamID key params
    d.2.authed = c.2.authed ∧
      d.2.nextStream = (if fresh then c.2.allocStream.1 else c.2).nextStream := by
  rw [sendStateInit, Session.post_eq]
  cases fresh with
  | false | true => exact ⟨rfl, rfl⟩

theorem watchKeys_acts (params : OrderedMap String GoValue) (multi : Bool) (keys : List String)
    (i : ℕ) (c : Conn) (hauth : c.1.opts.requireAuth → c.2.authed)
    (hmulti : i ≠ 0 → keys ≠ [] → multi = true) (hkeys : 1 < keys.length → multi = true) :
    ∃ acts, Acts c acts (watchKeys f params multi i keys c) ∧
      acts.filterMap Act.opens <+: (idsFrom f.streamID i c.2.nextStream keys.length).zip keys ∧
      ∀ act ∈ acts, act.Quiet := by
  have hsay : ∀ (c : Conn) (msg : OutMsg) (pairs : List (ℕ × String)), msg.shows = none →
      ∃ acts, Acts c acts (c.1, c.2.post msg) ∧ acts.filterMap Act.opens <+: pairs ∧
        ∀ act ∈ acts, act.Quiet := by
    intro c msg pairs hmsg
    exact ⟨[.say msg], Acts.say hmsg, nil_prefix, by simp [Act.Quiet]⟩
  induction keys generalizing i c with
  | nil => exact ⟨[], .nil c, nil_prefix, by simp⟩
  | cons key keys ih =>
    rw [watchKeys]
    rcases authorizeKey_cases c.1.opts c.2 f.streamID key .read with
      ⟨hverdict, hallow⟩ | ⟨code, message, hverdict⟩
    swap
    · rw [hverdict, if_pos Bool.false_ne_true]
      split_ifs <;> exact hsay c _ _ rfl
    rw [hverdict, if_neg (not_not_intro rfl)]
    split_ifs
    swap
    · exact hsay c _ _ rfl
    obtain ⟨fresh, streamID, hpick, hfresh, hids⟩ :=
      pickStream_spec (fun hi => hmulti hi (cons_ne_nil key keys)) keys.length
    rw [hpick]
    dsimp only
    rw [length_cons, hids, zip_cons_cons]
    cases hadd : (if fresh then c.2.allocStream.1 else c.2).addWatch streamID key with
    | none =>
      obtain ⟨acts, hacts, hopens, hquiet⟩ :=
        refused_acts c fresh (.error f.streamID 429 "watch limit reached") rfl
      exact ⟨acts, hacts, hopens ▸ nil_prefix, hquiet⟩
    | some =>
      dsimp only
      have hwatch : (Act.watch fresh streamID key).Allowed c := ⟨hauth, hallow, hfresh⟩
      have hinit : (Act.init streamID key params).Allowed ((Act.watch fresh streamID key).run c) :=
        get?_insert_self _ _ _
      obtain ⟨hreq, hnext⟩ := sendStateInit_openWatch c fresh streamID key params
      obtain ⟨acts, hacts, hopens, hquiet⟩ := ih (i + 1)
        (sendStateInit ((Act.watch fresh streamID key).run c) streamID key params)
        (fun h => hreq ▸ hauth h) (fun _ hne => hkeys (Nat.succ_lt_succ (length_pos_iff.mpr hne)))
        (fun h => hkeys (Nat.lt_succ_of_lt h))
      refine ⟨.watch fresh streamID key :: .init streamID key params :: acts,
        .cons hwatch (.cons hinit hacts), ?_, ?_⟩
      · rw [idsFrom_succ, hnext] at hopens
        exact prefix_cons_inj (streamID, key) |>.mpr hopens
      · simpa [Act.Quiet] using hquiet

theorem handleWatch_acts (ch : Choices) (c : Conn) (f : Frame)
    (hauth : c.1.opts.requireAuth → c.2.authed) : ∃ acts, Acts c acts (handleWatch ch c f) ∧
      acts.filterMap Act.opens <+:
        (f.streamIDs ch.conversions c.2.nextStream).zip (f.watchKeys ch.conversions) ∧
      ∀ act ∈ acts, act.Quiet := by
  rw [handleWatch, Frame.streamIDs, Frame.watchKeys]
  cases decodeWatchBody ch.conversions f.body with
  | none => exact ⟨[.say _], Acts.say rfl, nil_prefix, by simp [Act.Quiet]⟩
  | some body =>
    dsimp only
    split_ifs
    · exact ⟨[.say _], Acts.say rfl, nil_prefix, by simp [Act.Quiet]⟩
    · exact watchKeys_acts body.params _ body.keys 0 c hauth (fun h => absurd rfl h)
        (fun h => decide_eq_true h)

theorem streamForKey_cases (sess : Session) (range : KeyOrder ℕ) (key : String) :
    sess.streamForKey range key = 0 ∨
      sess.watches.get? (sess.streamForKey range key) = some key := by
  rw [Session.streamForKey]
  cases hfind : (range.order sess.watches.keys).find? fun n => sess.watches.get? n = some key with
  | none => exact .inl rfl
  | some =>
    have hkey := find?_some hfind
    rw [decide_eq_true_eq] at hkey
    exact .inr hkey

theorem unwatchKeys_acts (ch : Choices) (keys : List String) (i : ℕ) (c : Conn) :
    ∃ acts, Acts c acts (unwatchKeys ch i keys c) ∧ acts.filterMap Act.opens = [] ∧
      ∀ act ∈ acts, act.Quiet := by
  induction keys generalizing i c with
  | nil => exact ⟨[], .nil c, rfl, by simp⟩
  | cons key keys ih =>
    rw [unwatchKeys]
    split_ifs with hsid
    · exact ih (i + 1) c
    · obtain ⟨acts, hacts, hopens, hquiet⟩ :=
        ih (i + 1) (closeWatch c (c.2.streamForKey (ch.streams i) key) key)
      have hlive := (streamForKey_cases c.2 (ch.streams i) key).resolve_left hsid
      exact ⟨.unwatch _ key :: acts, .cons hlive hacts, hopens, by simpa [Act.Quiet] using hquiet⟩

theorem handleUnwatch_acts (ch : Choices) (c : Conn) (f : Frame) :
    ∃ acts, Acts c acts (handleUnwatch ch c f) ∧ acts.filterMap Act.opens = [] ∧
      ∀ act ∈ acts, act.Quiet := by
  rw [handleUnwatch]
  split_ifs
  · cases hlive : c.2.watches.get? f.streamID with
    | none => exact ⟨[], .nil c, rfl, by simp⟩
    | some key => exact ⟨[.unwatch f.streamID key], .single hlive, rfl, by simp [Act.Quiet]⟩
  · exact unwatchKeys_acts ch _ 0 c

theorem handleAuth_acts (c : Conn) (f : Frame) :
    ∃ acts, Acts c acts (c.1, handleAuth c.1.opts c.2 f) ∧ acts.filterMap Act.opens = [] ∧
      ∀ act ∈ acts, act.Quiet := by
  have hsay : ∀ msg : OutMsg, msg.shows = none → ∃ acts, Acts c acts (c.1, c.2.post msg) ∧
      acts.filterMap Act.opens = [] ∧ ∀ act ∈ acts, act.Quiet := by
    intro msg hmsg
    exact ⟨[.say msg], Acts.say hmsg, rfl, by simp [Act.Quiet]⟩
  rw [handleAuth]
  split_ifs with hauthed
  · exact hsay _ rfl
  rw [Bool.not_eq_true] at hauthed
  cases hjwt : c.1.opts.jwt with
  | none =>
    exact ⟨[.mark, .say _], .cons ⟨hauthed, hjwt⟩ (Acts.say rfl), rfl, by simp [Act.Quiet]⟩
  | some validate =>
    dsimp only
    cases decodeAuthBody f.body with
    | none => exact hsay _ rfl
    | some token =>
      dsimp only
      cases validate token with
      | none => exact hsay _ rfl
      | some claims =>
        exact ⟨[.login _ claims, .say _], .cons ⟨hauthed, rfl⟩ (Acts.say rfl), rfl,
          by simp [Act.Quiet]⟩

theorem checkRate_fst (sess : Session) (now : ℤ) : ∃ count reset,
      (sess.checkRate now).1 = { sess with rateCount := count, rateReset := reset } := by
  rw [Session.checkRate]
  split_ifs <;> exact ⟨_, _, rfl⟩

variable {state : StateStore}

theorem key_callMutation {key : String} {body : CallBody} {m : Mutation}
    (h : callMutation ch state key body = .ok m) : m.key = key := by
  rw [callMutation] at h
  dsimp only at h
  split_ifs at h
  all_goals
    cases h
    rfl

def Frame.callKey (f : Frame) : String :=
  match decodeCallBody f.body with
  | none => ""
  | some body => asString (body.args.get? "state")

def Frame.Changes (ch : Choices) (state : StateStore) (f : Frame) (m : Mutation) : Prop :=
  ∃ body, decodeCallBody f.body = some body ∧
    callMutation ch state (asString (body.args.get? "state")) body = .ok m

theorem Frame.Changes.key {ch : Choices} {m : Mutation}
    (h : f.Changes ch state m) : m.key = f.callKey := by
  obtain ⟨_, hbody, hm⟩ := h
  rw [key_callMutation hm, Frame.callKey, hbody]

theorem handleCall_cases (ch : Choices) (c : Conn) (f : Frame) :
    ∃ count reset, let sess := { c.2 with rateCount := count, rateReset := reset }
      (∃ msg, msg.shows = none ∧ handleCall ch c f = (c.1, sess.post msg)) ∨
      ∃ m callID range, f.Changes ch c.1.state m ∧ c.1.opts.Allows sess m.key .write ∧
        handleCall ch c f = change (c.1, sess) m f callID range := by
  obtain ⟨count, reset, hrate⟩ := checkRate_fst c.2 ch.now
  refine ⟨count, reset, ?_⟩
  dsimp only
  rw [← hrate, handleCall]
  split_ifs
  swap
  · exact .inl ⟨_, rfl, rfl⟩
  cases hbody : decodeCallBody f.body with
  | none => exact .inl ⟨_, rfl, rfl⟩
  | some body =>
    dsimp only
    rcases authorizeKey_cases c.1.opts (c.2.checkRate ch.now).1 f.streamID
      (asString (body.args.get? "state")) .write with ⟨hverdict, hallow⟩ | ⟨code, message, hverdict⟩
    swap
    · rw [hverdict, if_pos Bool.false_ne_true]
      split_ifs <;> exact .inl ⟨_, rfl, rfl⟩
    rw [hverdict, if_neg (not_not_intro rfl)]
    split_ifs
    · exact .inl ⟨_, rfl, rfl⟩
    · cases hmethod : callMutation ch c.1.state (asString (body.args.get? "state")) body with
      | error => exact .inl ⟨_, rfl, rfl⟩
      | ok m =>
        refine .inr ⟨m, body.callID, ch.streams 0, ⟨body, hbody, hmethod⟩, ?_, rfl⟩
        rw [key_callMutation hmethod]
        exact hallow
    · exact .inl ⟨_, rfl, rfl⟩

theorem handleCall_acts (ch : Choices) (c : Conn) (f : Frame)
    (hauth : c.1.opts.requireAuth → c.2.authed) :
    ∃ count reset act, Acts c [.rate count reset, act] (handleCall ch c f) ∧
      ((∃ msg, act = .say msg) ∨
        ∃ m callID range, act = .change m f callID range ∧ m.key = f.callKey) := by
  obtain ⟨count, reset, ⟨msg, hmsg, heq⟩ | ⟨m, callID, range, hm, hallow, heq⟩⟩ :=
    handleCall_cases ch c f
  · rw [heq]
    exact ⟨count, reset, .say msg, .cons trivial (Acts.say hmsg), .inl ⟨msg, rfl⟩⟩
  · rw [heq]
    exact ⟨count, reset, .change m f callID range, .cons trivial (.single ⟨hauth, hallow⟩),
      .inr ⟨m, callID, range, rfl, hm.key⟩⟩

variable {deltas : List DeltaEntry}

theorem mem_deltasSince {s : StateStore} {key : String} {v : ℕ}
    (h : s.deltasSince key v = some deltas) {d : DeltaEntry} (hd : d ∈ deltas) :
    d ∈ (s.ring key).entries := by
  rw [StateStore.deltasSince] at h
  rw [StateStore.ring]
  cases hring : s.deltas.get? key with
  | none => simp [hring] at h
  | some =>
    simp only [hring] at h
    split_ifs at h
    rw [some.injEq] at h
    rw [← h, mem_filter] at hd
    exact hd.1

theorem replays_acts {streamID : ℕ} {key : String} (hlive : c.2.watches.get? streamID = some key)
    (hdeltas : ∀ d ∈ deltas, d ∈ (c.1.state.ring key).entries) :
    Acts c (deltas.map (Act.replay streamID))
      (c.1, deltas.foldl (fun sess d => sess.post (.delta streamID d)) c.2) := by
  induction deltas generalizing c with
  | nil => exact .nil c
  | cons d deltas ih =>
    refine .cons ⟨key, hlive, hdeltas d mem_cons_self⟩ ?_
    refine ih ?_ fun e he => hdeltas e (mem_cons_of_mem d he)
    change (c.2.post _).watches.get? streamID = some key
    rw [Session.post_eq]
    exact hlive

variable {pairs : List (ℕ × String)} {keys : List String}

theorem opens_fst {ids : List ℕ} (h : pairs <+: ids.zip keys) : pairs.map Prod.fst <+: ids := by
  refine (h.map Prod.fst).trans ?_
  rw [zip_eq_zip_take_min, map_fst_zip (by simp)]
  exact take_prefix _ _

theorem opens_snd {ids : List ℕ} (h : pairs <+: ids.zip keys) : pairs.map Prod.snd <+: keys := by
  refine (h.map Prod.snd).trans ?_
  rw [zip_eq_zip_take_min, map_snd_zip (by simp)]
  exact take_prefix _ _

theorem keys_ne_nil {body : WatchBody} (hkey : body.key ≠ "") : body.keys ≠ [] := by
  rw [WatchBody.keys]
  split_ifs with h
  · exact cons_ne_nil _ _
  · intro hnil
    exact h ⟨hnil, hkey⟩

theorem resume_stream (sess : Session) (f : Frame) (n : ℕ) : ∃ fresh streamID,
      (if f.streamID = 0 then sess.allocStream else (sess, f.streamID)) =
        (if fresh then sess.allocStream.1 else sess, streamID) ∧
      (fresh = true → streamID = sess.nextStream) ∧
      [streamID] <+: idsFrom f.streamID 0 sess.nextStream (n + 1) := by
  rw [idsFrom]
  by_cases hzero : f.streamID = 0
  · exact ⟨true, sess.nextStream, if_pos hzero, fun _ => rfl, by simp [hzero, allocs]⟩
  · exact ⟨false, f.streamID, if_neg hzero, Bool.noConfusion, by simp [hzero]⟩

theorem opens_replays (streamID : ℕ) (deltas : List DeltaEntry) :
    (deltas.map (Act.replay streamID)).filterMap Act.opens = [] := by
  rw [filterMap_map]
  exact filterMap_eq_nil_iff.mpr fun _ _ => rfl

theorem handleResume_acts (ch : Choices) (c : Conn) (f : Frame)
    (hauth : c.1.opts.requireAuth → c.2.authed) : ∃ acts, Acts c acts (handleResume ch c f) ∧
      (acts.filterMap Act.opens).map Prod.fst <+: f.streamIDs ch.conversions c.2.nextStream := by
  rw [handleResume]
  cases hbody : decodeWatchBody ch.conversions f.body with
  | none => exact ⟨_, Acts.say rfl, nil_prefix⟩
  | some body =>
    dsimp only
    rcases authorizeKey_cases c.1.opts c.2 f.streamID body.key .read with
      ⟨hverdict, hallow⟩ | ⟨code, message, hverdict⟩
    swap
    · rw [hverdict, if_pos Bool.false_ne_true]
      split_ifs <;> exact ⟨_, Acts.say rfl, nil_prefix⟩
    by_cases hvalid : isValidKey body.key = true
    swap
    · rw [if_pos hvalid]
      exact ⟨_, Acts.say rfl, nil_prefix⟩
    rw [if_neg (not_not_intro hvalid), hverdict, if_neg (not_not_intro rfl)]
    dsimp only
    cases hsince : c.1.state.deltasSince body.key body.sinceVersion with
    | none =>
      obtain ⟨acts, hacts, hopens, -⟩ := handleWatch_acts ch c f hauth
      exact ⟨acts, hacts, opens_fst hopens⟩
    | some deltas =>
      have hkey : body.key ≠ "" := by
        rintro hkey
        rw [hkey] at hvalid
        exact absurd hvalid (by decide)
      obtain ⟨n, hn⟩ := Nat.exists_eq_succ_of_ne_zero (length_pos_iff.mpr (keys_ne_nil hkey)).ne'
      obtain ⟨fresh, streamID, hpick, hfresh, hids⟩ := resume_stream c.2 f n
      rw [Frame.streamIDs, hbody]
      dsimp only
      rw [hn, hpick]
      dsimp only
      cases hadd : (if fresh then c.2.allocStream.1 else c.2).addWatch streamID body.key with
      | none =>
        obtain ⟨acts, hacts, hopens, -⟩ :=
          refused_acts c fresh (.error f.streamID 429 "watch limit reached") rfl
        exact ⟨acts, hacts, hopens ▸ nil_prefix⟩
      | some =>
        have hquiets := replays_acts (c := (Act.watch fresh streamID body.key).run c)
          (get?_insert_self _ _ _) fun d hd => mem_deltasSince hsince hd
        refine ⟨.watch fresh streamID body.key :: deltas.map (Act.replay streamID),
          .cons ⟨hauth, hallow, hfresh⟩ hquiets, ?_⟩
        have hopens : (Act.watch fresh streamID body.key).opens = some (streamID, body.key) := rfl
        rw [filterMap_cons_some hopens, opens_replays]
        exact hids

def Frame.mayOpen (conv : Conversions) (f : Frame) (next : ℕ) : List ℕ :=
  if f.type = .watch ∨ f.type = .resume then f.streamIDs conv next else []

theorem dispatch_acts (ch : Choices) (c : Conn) (f : Frame) :
    ∃ acts, Acts c acts (dispatch ch c f) ∧
      (acts.filterMap Act.opens).map Prod.fst <+: f.mayOpen ch.conversions c.2.nextStream := by
  have hchecked : ∀ {d : Conn}, ((c.1.opts.requireAuth → c.2.authed) → ∃ acts, Acts c acts d ∧
        (acts.filterMap Act.opens).map Prod.fst <+: f.mayOpen ch.conversions c.2.nextStream) →
      ∃ acts, Acts c acts
        (if (checkAuth c.1.opts c.2).2 then d else (c.1, (checkAuth c.1.opts c.2).1)) ∧
        (acts.filterMap Act.opens).map Prod.fst <+: f.mayOpen ch.conversions c.2.nextStream := by
    intro d hd
    rcases checkAuth_cases c.1.opts c.2 with ⟨hcheck, hauth⟩ | hcheck
    · rw [hcheck]
      exact hd hauth
    · rw [hcheck]
      exact ⟨_, Acts.say rfl, nil_prefix⟩
  have hnone : ∀ {d : Conn}, (∃ acts, Acts c acts d ∧ acts.filterMap Act.opens = [] ∧
      ∀ act ∈ acts, act.Quiet) → ∃ acts, Acts c acts d ∧
        (acts.filterMap Act.opens).map Prod.fst <+: f.mayOpen ch.conversions c.2.nextStream := by
    rintro d ⟨acts, hacts, hopens, -⟩
    exact ⟨acts, hacts, hopens ▸ nil_prefix⟩
  rw [dispatch]
  cases hf : f.type with
  | auth => exact hnone (handleAuth_acts c f)
  | watch =>
    refine hchecked fun hauth => ?_
    obtain ⟨acts, hacts, hopens, -⟩ := handleWatch_acts ch c f hauth
    refine ⟨acts, hacts, ?_⟩
    rw [Frame.mayOpen, if_pos (.inl hf)]
    exact opens_fst hopens
  | unwatch => exact hnone (handleUnwatch_acts ch c f)
  | call =>
    refine hchecked fun hauth => ?_
    obtain ⟨_, _, act, hacts, ⟨_, rfl⟩ | ⟨m, _, _, rfl, -⟩⟩ :=
      handleCall_acts ch c f hauth <;> exact ⟨_, hacts, nil_prefix⟩
  | resume =>
    refine hchecked fun hauth => ?_
    rw [Frame.mayOpen, if_pos (.inr hf)]
    exact handleResume_acts ch c f hauth
  | heartbeat | other => exact ⟨_, Acts.say rfl, nil_prefix⟩

end Handlers

end Sodp.GoServer
