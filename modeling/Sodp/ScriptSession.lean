import Sodp.ScriptConvergence
import Sodp.ScriptStore

/-!
# The sessions of the TypeScript server

`session.ts` on one event loop: what stands between two awaits happens at once. A WATCH or RESUME
handler waits for `authorize`, then subscribes its session and waits for `ensureHydrated`, and then
sends the snapshot. UNWATCH and `teardown` have no await.

A callback in the store is known by its session and its stream, and handlers have names of any type.
A client is its cache after all frames sent to it so far. The server keeps, for the statements only,
the op lists published on each key and the hydration results that were stored. A frame that the
limiter refuses, or that names no key, starts no handler. Sequence numbers and params are left out.
-/

namespace Sodp.ScriptServer
open Function Option

inductive ServerFrame where
  | stateInit (stream : ℕ) (state : String) (version : ℕ) (value : JsValue) (initialized : Bool)
  | delta (stream version : ℕ) (ops : List DeltaOp) (state : String)
  | error (code : ℕ) (message : String)

/-! ### What a client makes of the frames -/

/-- A client that watches every key. -/
structure ClientCache where
  streamToKey : ℕ → Option String
  value : String → JsValue

namespace ClientCache
variable (wire : JsValue → JsValue)

def onStateInit (c : ClientCache) (stream : ℕ) (key : String) (value : JsValue) : ClientCache :=
  ⟨update c.streamToKey stream (some key), update c.value key (wire value)⟩

/-- An empty key is no key. Ops that throw leave the value. -/
def onDelta (c : ClientCache) (stream : ℕ) (ops : List DeltaOp) : ClientCache :=
  match (c.streamToKey stream).filter fun key => key ≠ "" with
  | none => c
  | some key =>
    match clientOps wire (c.value key) ops with
    | .error _ => c
    | .ok value => { c with value := update c.value key value }

def receive (c : ClientCache) : ServerFrame → ClientCache
  | .stateInit stream key _ value _ => c.onStateInit wire stream key value
  | .delta stream _ ops _ => c.onDelta wire stream ops
  | .error .. => c

end ClientCache

/-! ### Sessions and handlers -/

inductive Socket where
  | open
  | closing
  | closed
  deriving DecidableEq

structure SodpSession where
  socket : Socket
  nextStream : ℕ
  /-- the stream of each subscription -/
  subs : OrderedMap String ℕ
  presence : List (String × String)

def SodpSession.new : SodpSession := ⟨.open, 10, .empty, []⟩

inductive Stage where
  /-- waits for `authorize` -/
  | authorizing
  /-- waits for the `hydrate` hook -/
  | hydrating (stream : ℕ)
  /-- `ensureHydrated` is done -/
  | settling (stream : ℕ)
  deriving DecidableEq

structure Handler (ι : Type*) where
  session : ι
  key : String
  rest : List String
  since : Option ℕ
  stage : Stage

def Handler.next {ι : Type*} (job : Handler ι) : Option (Handler ι) :=
  match job.rest with
  | [] => none
  | key :: rest => some { job with key := key, rest := rest, stage := .authorizing }

inductive Answer where
  | allowed
  | denied
  | thrown

inductive SessionEvent (ι κ : Type*) where
  | watch (h : κ) (i : ι) (keys : List String)
  | resume (h : κ) (i : ι) (key : String) (since : ℕ)
  | unwatch (i : ι) (keys : List String)
  | authorized (h : κ) (answer : Answer)
  /-- the value of the hook, or none if it throws -/
  | hydrated (h : κ) (result : Option JsValue)
  | finish (h : κ)
  | publish (key : String) (ops : List DeltaOp)
  | registerPresence (i : ι) (key path : String)
  /-- `ws.close()` -/
  | shut (i : ι)
  | error (i : ι)
  | close (i : ι)

structure Server (ι κ : Type*) where
  store : StateStore (ι × ℕ)
  sessions : ι → SodpSession
  handlers : κ → Option (Handler ι)
  clients : ι → ClientCache
  published : String → List (List DeltaOp)
  hydrations : String → List JsValue

variable {ι κ : Type*}

section Messages
variable [DecidableEq ι] (wire : JsValue → JsValue)

def sent (sessions : ι → SodpSession) (clients : ι → ClientCache) (i : ι) (frame : ServerFrame) :
    ι → ClientCache :=
  if (sessions i).socket = .open then update clients i ((clients i).receive wire frame)
  else clients

def sentAll (sessions : ι → SodpSession) (clients : ι → ClientCache)
    (frames : List (ι × ServerFrame)) : ι → ClientCache :=
  frames.foldl (fun clients frame => sent wire sessions clients frame.1 frame.2) clients

end Messages

namespace Server
variable [DecidableEq ι]

def start (capacity : ℕ) (cached : ι → String → JsValue) : Server ι κ where
  store := .new capacity
  sessions _ := .new
  handlers _ := none
  clients i := ⟨fun _ => none, cached i⟩
  published _ := []
  hydrations _ := []

def setSession (s : Server ι κ) (i : ι) (session : SodpSession) : Server ι κ :=
  { s with sessions := update s.sessions i session }

def setHandler [DecidableEq κ] (s : Server ι κ) (h : κ) (job : Option (Handler ι)) :
    Server ι κ := { s with handlers := update s.handlers h job }

section Steps
variable (wire : JsValue → JsValue)

def sendAll (s : Server ι κ) (frames : List (ι × ServerFrame)) : Server ι κ :=
  { s with clients := sentAll wire s.sessions s.clients frames }

def publish (s : Server ι κ) (key : String) (ops : List DeltaOp) : Server ι κ :=
  match applyOps (s.store.entry key).value ops with
  | .error _ => { s with store := s.store.publish key ops }
  | .ok _ =>
    sendAll wire
      { s with
        store := s.store.publish key ops
        published := update s.published key (s.published key ++ [ops]) }
      ((s.store.entry key).subscribers.map fun sub =>
        (sub.1, .delta sub.2 ((s.store.entry key).version + 1) ops key))

def streamFor (s : Server ι κ) (i : ι) (key : String) : ℕ :=
  ((s.sessions i).subs.get? key).getD (s.sessions i).nextStream

def subscribe (s : Server ι κ) (i : ι) (key : String) : Server ι κ :=
  match (s.sessions i).subs.get? key with
  | some _ => s
  | none =>
    let stream := (s.sessions i).nextStream
    setSession { s with store := s.store.subscribe key (i, stream) } i
      { s.sessions i with
        nextStream := stream + 1
        subs := (s.sessions i).subs.insert key stream }

def replays (s : Server ι κ) (i : ι) (key : String) (since : Option ℕ) (stream : ℕ) :
    List (ι × ServerFrame) :=
  match since.bind fun v => s.store.deltasSince key v with
  | none => []
  | some deltas => deltas.map fun d => (i, .delta stream d.version d.ops key)

def ensureHydrated (s : Server ι κ) (key : String) (stream : ℕ) : Stage :=
  if (s.store.snapshot key).2.2 then .settling stream else .hydrating stream

def stateInit (s : Server ι κ) (key : String) (stream : ℕ) : ServerFrame :=
  .stateInit stream key (s.store.snapshot key).1 (s.store.snapshot key).2.1
    (s.store.snapshot key).2.2

def storeHydrated (s : Server ι κ) (key : String) (result : Option JsValue) : Server ι κ :=
  match result.filter fun value => value ≠ .null with
  | none => s
  | some value =>
    { s with
      store := s.store.hydrate key value
      hydrations := update s.hydrations key (s.hydrations key ++ [value]) }

def unwatchKey (s : Server ι κ) (i : ι) (key : String) : Server ι κ :=
  match (s.sessions i).subs.get? key with
  | none => s
  | some stream =>
    setSession { s with store := s.store.unsubscribe key (i, stream) } i
      { s.sessions i with subs := (s.sessions i).subs.erase key }

def cleanPresence (s : Server ι κ) (presence : List (String × String)) : Server ι κ :=
  presence.foldl (fun s p => s.publish wire p.1 [⟨.remove, p.2, .undefined⟩]) s

def teardown (s : Server ι κ) (i : ι) : Server ι κ :=
  let s := s.cleanPresence wire (s.sessions i).presence
  setSession
    { s with
      store := (s.sessions i).subs.toList.foldl
        (fun store sub => store.unsubscribe sub.1 (i, sub.2)) s.store } i
    { s.sessions i with subs := .empty }

variable [DecidableEq κ]

def allow (s : Server ι κ) (h : κ) (job : Handler ι) : Server ι κ :=
  let stream := s.streamFor job.session job.key
  let s := s.subscribe job.session job.key
  let s := s.sendAll wire (s.replays job.session job.key job.since stream)
  s.setHandler h (some { job with stage := s.ensureHydrated job.key stream })

def authorized (s : Server ι κ) (h : κ) (job : Handler ι) : Answer → Server ι κ
  | .allowed => s.allow wire h job
  | .denied =>
    let s := s.sendAll wire [(job.session, .error 403 ("access denied: " ++ job.key))]
    s.setHandler h job.next
  | .thrown => s.setHandler h none

def startHandler (s : Server ι κ) (h : κ) (job : Handler ι) : Option (Server ι κ) :=
  match s.handlers h with
  | none =>
    if (s.sessions job.session).socket = .closed then none else some (s.setHandler h (some job))
  | some _ => none

def step (s : Server ι κ) : SessionEvent ι κ → Option (Server ι κ)
  | .watch _ _ [] => none
  | .watch h i (key :: rest) => s.startHandler h ⟨i, key, rest, none, .authorizing⟩
  | .resume h i key since => s.startHandler h ⟨i, key, [], some since, .authorizing⟩
  | .unwatch i keys =>
    if (s.sessions i).socket = .closed then none
    else some (keys.foldl (fun s key => s.unwatchKey i key) s)
  | .authorized h answer =>
    match s.handlers h with
    | none => none
    | some job => if job.stage = .authorizing then some (s.authorized wire h job answer) else none
  | .hydrated h result =>
    match s.handlers h with
    | none => none
    | some job =>
      match job.stage with
      | .hydrating stream =>
        some ((s.storeHydrated job.key result).setHandler h
          (some { job with stage := .settling stream }))
      | _ => none
  | .finish h =>
    match s.handlers h with
    | none => none
    | some job =>
      match job.stage with
      | .settling stream =>
        some ((s.sendAll wire [(job.session, s.stateInit job.key stream)]).setHandler h job.next)
      | _ => none
  | .publish key ops => some (s.publish wire key ops)
  | .registerPresence i key path =>
    some (s.setSession i
      { s.sessions i with presence := (s.sessions i).presence ++ [(key, path)] })
  | .shut i =>
    if (s.sessions i).socket = .open then
      some (s.setSession i { s.sessions i with socket := .closing })
    else none
  | .error i =>
    if (s.sessions i).socket = .closed then none
    else some ((s.setSession i { s.sessions i with socket := .closing }).teardown wire i)
  | .close i =>
    if (s.sessions i).socket = .closed then none
    else some ((s.setSession i { s.sessions i with socket := .closed }).teardown wire i)

end Steps

/-! ### What a step leaves as it is -/

theorem sessions_setSession_self (s : Server ι κ) (i : ι) (session : SodpSession) :
    (s.setSession i session).sessions i = session := update_self _ _ _

theorem sessions_setSession_of_ne (s : Server ι κ) {i j : ι} (h : j ≠ i) (session : SodpSession) :
    (s.setSession i session).sessions j = s.sessions j := update_of_ne h _ _

section Frames
variable (wire : JsValue → JsValue)

variable (s : Server ι κ) (key : String) (result : Option JsValue) (ops : List DeltaOp)

theorem store_publish :
    (s.publish wire key ops).store = s.store.publish key ops := by
  rw [publish]
  split <;> rfl

theorem sessions_publish :
    (s.publish wire key ops).sessions = s.sessions := by
  rw [publish]
  split <;> rfl

theorem handlers_publish :
    (s.publish wire key ops).handlers = s.handlers := by
  rw [publish]
  split <;> rfl

theorem cleanPresence_induction {P : Server ι κ → Prop}
    (hP : ∀ s key ops, P s → P (s.publish wire key ops)) (presence : List (String × String))
    (s : Server ι κ) (h : P s) : P (s.cleanPresence wire presence) := by
  induction presence generalizing s with
  | nil => exact h
  | cons p presence ih => exact ih _ (hP s _ _ h)

theorem unwatch_induction {P : Server ι κ → Prop} {i : ι}
    (hP : ∀ s key, P s → P (s.unwatchKey i key)) (keys : List String) (s : Server ι κ) (h : P s) :
    P (keys.foldl (fun s key => s.unwatchKey i key) s) := by
  induction keys generalizing s with
  | nil => exact h
  | cons key keys ih => exact ih _ (hP s key h)

omit [DecidableEq ι]

theorem sessions_storeHydrated :
    (s.storeHydrated key result).sessions = s.sessions := by
  rw [storeHydrated]
  split <;> rfl

theorem handlers_storeHydrated :
    (s.storeHydrated key result).handlers = s.handlers := by
  rw [storeHydrated]
  split <;> rfl

theorem subscribers_storeHydrated
    (other : String) : ((s.storeHydrated key result).store.entry other).subscribers =
      (s.store.entry other).subscribers := by
  rw [storeHydrated]
  split
  · rfl
  · exact s.store.subscribers_hydrate key _ other

end Frames

/-! ### The steps of a handler -/

section Handlers
variable [DecidableEq κ] {wire : JsValue → JsValue} {s t : Server ι κ} {h : κ}

omit [DecidableEq ι] in
theorem handlers_setHandler_self (s : Server ι κ) (h : κ) (job : Option (Handler ι)) :
    (s.setHandler h job).handlers h = job := update_self _ _ _

omit [DecidableEq ι] in
theorem handlers_setHandler_of_ne (s : Server ι κ) {h h' : κ} (hne : h' ≠ h)
    (job : Option (Handler ι)) : (s.setHandler h job).handlers h' = s.handlers h' :=
  update_of_ne hne _ _

omit [DecidableEq ι] in
theorem of_startHandler {job : Handler ι} (hstart : s.startHandler h job = some t) :
    s.handlers h = none ∧ t = s.setHandler h (some job) := by
  rw [startHandler] at hstart
  cases hold : s.handlers h with
  | some =>
    rw [hold] at hstart
    cases hstart
  | none =>
    rw [hold] at hstart
    obtain ⟨-, heq⟩ := ite_none_left_eq_some.mp hstart
    exact ⟨rfl, (some.inj heq).symm⟩

theorem of_step_hydrated {result : Option JsValue}
    (hstep : s.step wire (.hydrated h result) = some t) :
    ∃ job stream, s.handlers h = some job ∧ job.stage = .hydrating stream ∧
      t = (s.storeHydrated job.key result).setHandler h
        (some { job with stage := .settling stream }) := by
  rw [step] at hstep
  cases hjob : s.handlers h with
  | none =>
    rw [hjob] at hstep
    cases hstep
  | some job =>
    rw [hjob] at hstep
    cases hstage : job.stage with
    | authorizing => simp [hstage] at hstep
    | settling => simp [hstage] at hstep
    | hydrating stream =>
      simp only [hstage, some.injEq] at hstep
      exact ⟨job, stream, rfl, hstage, hstep.symm⟩

theorem of_step_authorized {answer : Answer} (hstep : s.step wire (.authorized h answer) = some t) :
    ∃ job, s.handlers h = some job ∧ job.stage = .authorizing ∧
      t = s.authorized wire h job answer := by
  rw [step] at hstep
  cases hjob : s.handlers h with
  | none =>
    rw [hjob] at hstep
    cases hstep
  | some job =>
    rw [hjob] at hstep
    obtain ⟨hstage, heq⟩ := ite_none_right_eq_some.mp hstep
    exact ⟨job, rfl, hstage, (some.inj heq).symm⟩

/-- All that an event can do to the server. -/
inductive Move (wire : JsValue → JsValue) (s : Server ι κ) :
    SessionEvent ι κ → Server ι κ → Prop where
  | start {e} (h job) (hnone : s.handlers h = none) (hstage : job.stage = .authorizing)
      (he : e = .watch h job.session (job.key :: job.rest) ∨
        ∃ since, e = .resume h job.session job.key since) :
    Move wire s e (s.setHandler h (some job))
  | unwatch (i keys) (hopen : (s.sessions i).socket ≠ .closed) :
    Move wire s (.unwatch i keys) (keys.foldl (fun s key => s.unwatchKey i key) s)
  | authorized (h job answer) (hjob : s.handlers h = some job)
      (hstage : job.stage = .authorizing) :
    Move wire s (.authorized h answer) (s.authorized wire h job answer)
  | hydrated (h job stream result) (hjob : s.handlers h = some job)
      (hstage : job.stage = .hydrating stream) :
    Move wire s (.hydrated h result) ((s.storeHydrated job.key result).setHandler h
      (some { job with stage := .settling stream }))
  | finish (h job stream) (hjob : s.handlers h = some job) (hstage : job.stage = .settling stream) :
    Move wire s (.finish h)
      ((s.sendAll wire [(job.session, s.stateInit job.key stream)]).setHandler h job.next)
  | publish (key ops) : Move wire s (.publish key ops) (s.publish wire key ops)
  | session {e} (i session) (hsubs : session.subs = (s.sessions i).subs)
      (hnext : session.nextStream = (s.sessions i).nextStream)
      (hsocket : session.socket = (s.sessions i).socket ∨
        (s.sessions i).socket = .open ∧ session.socket = .closing)
      (he : e = .shut i ∧ session.presence = (s.sessions i).presence ∨
        ∃ key path, e = .registerPresence i key path) :
    Move wire s e (s.setSession i session)
  | torn {e} (i socket) (hopen : (s.sessions i).socket ≠ .closed)
      (he : e = .error i ∧ socket = .closing ∨ e = .close i ∧ socket = .closed) :
    Move wire s e ((s.setSession i { s.sessions i with socket := socket }).teardown wire i)

theorem move_of_step {e : SessionEvent ι κ} (hstep : s.step wire e = some t) : Move wire s e t := by
  cases e with
  | watch h i keys =>
    cases keys with
    | nil => cases hstep
    | cons =>
      obtain ⟨hnone, rfl⟩ := of_startHandler hstep
      exact .start _ _ hnone rfl (.inl rfl)
  | resume h i key since =>
    obtain ⟨hnone, rfl⟩ := of_startHandler hstep
    exact .start _ _ hnone rfl (.inr ⟨since, rfl⟩)
  | unwatch i keys =>
    obtain ⟨hopen, heq⟩ := ite_none_left_eq_some.mp hstep
    cases heq
    exact .unwatch i keys hopen
  | authorized h answer =>
    obtain ⟨job, hjob, hstage, rfl⟩ := of_step_authorized hstep
    exact .authorized h job answer hjob hstage
  | hydrated h result =>
    obtain ⟨job, stream, hjob, hstage, rfl⟩ := of_step_hydrated hstep
    exact .hydrated h job stream result hjob hstage
  | finish h =>
    rw [step] at hstep
    cases hjob : s.handlers h with
    | none =>
      rw [hjob] at hstep
      cases hstep
    | some job =>
      rw [hjob] at hstep
      cases hstage : job.stage with
      | authorizing => simp [hstage] at hstep
      | hydrating => simp [hstage] at hstep
      | settling stream =>
        simp only [hstage, some.injEq] at hstep
        exact hstep ▸ .finish h job stream hjob hstage
  | publish key ops =>
    cases hstep
    exact .publish key ops
  | registerPresence i key path =>
    cases hstep
    exact .session _ _ rfl rfl (.inl rfl) (.inr ⟨key, path, rfl⟩)
  | shut =>
    obtain ⟨hopen, heq⟩ := ite_none_right_eq_some.mp hstep
    cases heq
    exact .session _ _ rfl rfl (.inr ⟨hopen, rfl⟩) (.inl ⟨rfl, rfl⟩)
  | error i =>
    obtain ⟨hopen, heq⟩ := ite_none_left_eq_some.mp hstep
    cases heq
    exact .torn i _ hopen (.inl ⟨rfl, rfl⟩)
  | close i =>
    obtain ⟨hopen, heq⟩ := ite_none_left_eq_some.mp hstep
    cases heq
    exact .torn i _ hopen (.inr ⟨rfl, rfl⟩)

end Handlers

end Server

end Sodp.ScriptServer
