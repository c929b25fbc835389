import Sodp.DiffAgreement
import Sodp.Publish
import Sodp.Replica

/-!
# One subscription in three clients

What the three clients keep of a watched key: a value, its version, and whether the key exists.
TypeScript and Python take the key for deleted if an op removes the root; Java takes every delta for
a sign that the key exists. Deltas can precede STATE_INIT: the Java client, which may have bound the
stream by a number of its own, can apply them, and STATE_INIT then replaces what came of it.

The decoders differ in large integers. TypeScript rounds those beyond 2^53, which is outside of this
model, and Java drops a frame with one that is no `long`.
-/

namespace Sodp
open StateStore OrderedMap List Option SodpServer

/-! ### The integers of a frame -/

/-- Below `2 ^ n` for the integers of `n + 1` bits. -/
def intMagnitude : ℤ → ℕ
  | .ofNat n | .negSucc n => n

mutual
/-- Of the largest integer. -/
def Value.magnitude : Value → ℕ
  | .number (.int i) => intMagnitude i
  | .array xs => Value.magnitudeList xs
  | .object ⟨ks, _, f⟩ => (ks.attach.map fun k => (f k).magnitude).foldr max 0
  | _ => 0
def Value.magnitudeList : List Value → ℕ
  | [] => 0
  | x :: xs => max x.magnitude (Value.magnitudeList xs)
end

def OutboundMsg.magnitude : OutboundMsg → ℕ
  | .stateInit _ seq _ version value _ params =>
    max (max seq version) (Value.magnitudeList (value :: params.toList))
  | .delta _ seq version ops =>
    max (max seq version) (Value.magnitudeList (ops.filterMap DeltaOp.value))
  | .resultOk _ seq _ data => max seq data.magnitude
  | .error _ seq code _ => max seq code
  | .heartbeat => 0

/-! ### The clients in Python and Java -/

structure CachedWatch where
  version : ℕ
  value : Value
  initialized : Bool
deriving DecidableEq

structure WatchCache where
  watches : OrderedMap String CachedWatch
  streamToKey : OrderedMap ℕ String

namespace Python

def onStateInit (c : WatchCache) (streamId : ℕ) (key : String) (entry : CachedWatch) : WatchCache :=
  match c.watches.get? key with
  | none => c
  | some _ => ⟨c.watches.insert key entry, c.streamToKey.insert streamId key⟩

/-- `_on_delta`. An empty key counts as none, and an error is caught where the frame is read. -/
def onDelta (c : WatchCache) (streamId version : ℕ) (ops : List DeltaOp) : WatchCache :=
  match (c.streamToKey.get? streamId).filter fun key => key ≠ "" with
  | none => c
  | some key =>
    match c.watches.get? key with
    | none => c
    | some entry =>
      match applyOps entry.value ops with
      | .error _ => c
      | .ok value =>
        { c with watches :=
            c.watches.insert key ⟨version, value, ! Client.SodpClient.isDeleted ops⟩ }

def handleFrame (c : WatchCache) : OutboundMsg → WatchCache
  | .stateInit streamId _ key version value initialized _ =>
    onStateInit c streamId key ⟨version, value, initialized⟩
  | .delta streamId _ version ops => onDelta c streamId version ops
  | _ => c

end Python

namespace Java

/-- The stream is bound in any case. -/
def onStateInit (c : WatchCache) (streamId : ℕ) (key : String) (entry : CachedWatch) : WatchCache :=
  let bound := { c with streamToKey := c.streamToKey.insert streamId key }
  match bound.watches.get? key with
  | none => bound
  | some _ => { bound with watches := bound.watches.insert key entry }

def onDelta (c : WatchCache) (streamId version : ℕ) (ops : List DeltaOp) : WatchCache :=
  match c.streamToKey.get? streamId with
  | none => c
  | some key =>
    match c.watches.get? key with
    | none => c
    | some entry =>
      match applyOps entry.value ops with
      | .ok after => { c with watches := c.watches.insert key ⟨version, after, true⟩ }

/-- `unpackLong` throws on an integer that is no `long`, and the frame is dropped. -/
def handleFrame (c : WatchCache) (msg : OutboundMsg) : WatchCache :=
  if msg.magnitude < 2 ^ 63 then
    match msg with
    | .stateInit streamId _ key version value initialized _ =>
      onStateInit c streamId key ⟨version, value, initialized⟩
    | .delta streamId _ version ops => onDelta c streamId version ops
    | _ => c
  else c

end Java

/-! ### Three clients on one stream -/

structure Clients where
  script : Client.SodpClient
  python : WatchCache
  java : WatchCache

def Client.SodpClient.Keeps (c : Client.SodpClient) (key : String) (w : CachedWatch) : Prop :=
  ∃ entry, c.watches.get? key = some entry ∧ entry.version = w.version ∧
    entry.value = .ofJson w.value ∧ entry.initialized = w.initialized

namespace Clients

def handleFrame (c : Clients) (m : OutboundMsg) : Clients :=
  ⟨c.script.handleFrame m, Python.handleFrame c.python m, Java.handleFrame c.java m⟩

def handleFrames (c : Clients) (msgs : List OutboundMsg) : Clients := msgs.foldl handleFrame c

def SameReplica (key : String) (c : Clients) : Prop :=
  ∃ w, c.script.Keeps key w ∧ c.python.watches.get? key = some w ∧
    c.java.watches.get? key = some w

/-- Each client has an entry of the key. -/
structure Watched (key : String) (c : Clients) : Prop where
  script : (c.script.watches.get? key).isSome
  python : (c.python.watches.get? key).isSome
  java : (c.java.watches.get? key).isSome

/-- Each client shows the key on the stream. After a deletion the Java client still takes the key
for existing. -/
structure Shows (streamId : ℕ) (key : String) (w : CachedWatch) (deleted : Bool) (c : Clients) :
    Prop where
  boundScript : c.script.streamToKey.get? streamId = some key
  boundPython : c.python.streamToKey.get? streamId = some key
  boundJava : c.java.streamToKey.get? streamId = some key
  script : c.script.Keeps key w
  python : c.python.watches.get? key = some w
  java : c.java.watches.get? key = some { w with initialized := w.initialized || deleted }
  flag : deleted = true → w.initialized = false

variable {streamId : ℕ} {key : String} {w : CachedWatch} {deleted : Bool} {c : Clients}

theorem Shows.sameReplica_iff (h : Shows streamId key w deleted c) :
    SameReplica key c ↔ deleted = false := by
  constructor
  · rintro ⟨v, -, hpython, hjava⟩
    rw [h.python, some.injEq] at hpython
    rw [h.java, hpython, some.injEq] at hjava
    have hflag := congrArg CachedWatch.initialized hjava
    cases hdeleted : deleted with
    | false => rfl
    | true =>
      have hfalse := h.flag hdeleted
      rw [hpython] at hfalse
      simp [hdeleted, hfalse] at hflag
  · rintro rfl
    refine ⟨w, h.script, h.python, ?_⟩
    rw [h.java, Bool.or_false]

theorem Shows.stateInit (h : c.Watched key) {seq : ℕ} {params : Option Value}
    (hlong : (OutboundMsg.stateInit streamId seq key w.version w.value w.initialized
      params).magnitude < 2 ^ 63) : Shows streamId key w false
      (c.handleFrame (.stateInit streamId seq key w.version w.value w.initialized params)) := by
  obtain ⟨e, he⟩ := isSome_iff_exists.mp h.script
  obtain ⟨p, hp⟩ := isSome_iff_exists.mp h.python
  obtain ⟨j, hj⟩ := isSome_iff_exists.mp h.java
  simp only [handleFrame, Client.SodpClient.handleFrame, Client.SodpClient.onStateInit, he,
    Python.handleFrame, Python.onStateInit, hp, Java.handleFrame, if_pos hlong, Java.onStateInit,
    hj]
  exact ⟨get?_insert_self .., get?_insert_self ..,
    get?_insert_self .., ⟨_, get?_insert_self .., rfl, rfl, rfl⟩,
    get?_insert_self .., by rw [Bool.or_false]; exact get?_insert_self ..,
    fun hdeleted => absurd hdeleted Bool.false_ne_true⟩

theorem Shows.delta (h : Shows streamId key w deleted c) (hkey : key ≠ "") {ops : List DeltaOp}
    {v : Value} (hscript : Client.applyOps (.ofJson w.value) ops = .ok (.ofJson v))
    (hpython : Python.applyOps w.value ops = .ok v) (hjava : Java.applyOps w.value ops = .ok v)
    {seq version : ℕ}
    (hlong : (OutboundMsg.delta streamId seq version ops).magnitude < 2 ^ 63) :
    Shows streamId key ⟨version, v, ! Client.SodpClient.isDeleted ops⟩
      (Client.SodpClient.isDeleted ops) (c.handleFrame (.delta streamId seq version ops)) := by
  obtain ⟨e, he, -, hvalue, -⟩ := h.script
  have hname : ∀ {bound : Option String}, bound = some key →
      (bound.filter fun k => k ≠ "") = some key := by
    rintro _ rfl
    simp [hkey]
  simp only [handleFrame, Client.SodpClient.handleFrame, Client.SodpClient.onDelta,
    Client.SodpClient.keyOf, hname h.boundScript, he, hvalue, hscript, Python.handleFrame,
    Python.onDelta, hname h.boundPython, h.python, hpython, Java.handleFrame, if_pos hlong,
    Java.onDelta, h.boundJava, h.java, hjava]
  refine ⟨h.boundScript, h.boundPython, h.boundJava,
    ⟨_, get?_insert_self .., rfl, rfl, rfl⟩, get?_insert_self .., ?_, ?_⟩
  · rw [Bool.not_or_self]
    exact get?_insert_self ..
  · intro hdeleted
    rw [hdeleted]
    rfl

theorem isSome_get?_insert {m : OrderedMap String CachedWatch} (h : (m.get? key).isSome)
    (k : String) (v : CachedWatch) : ((m.insert k v).get? key).isSome := by
  rw [get?_insert]
  split_ifs
  · rfl
  · exact h

theorem Watched.handleFrame (h : c.Watched key) (msg : OutboundMsg) :
    (c.handleFrame msg).Watched key := by
  constructor
  · have hscript := Client.SodpClient.isSome_valueAt_handleFrame c.script msg key
    rw [Client.SodpClient.valueAt, Client.SodpClient.valueAt, isSome_map, isSome_map] at hscript
    exact hscript.trans h.script
  · rw [Clients.handleFrame, Python.handleFrame.eq_def]
    dsimp only
    split
    · rw [Python.onStateInit]
      split
      · exact h.python
      · exact isSome_get?_insert h.python ..
    · rw [Python.onDelta]
      repeat' split
      all_goals first
        | exact h.python
        | exact isSome_get?_insert h.python ..
    · exact h.python
  · rw [Clients.handleFrame, Java.handleFrame.eq_def]
    dsimp only
    split_ifs
    · split
      · rw [Java.onStateInit]
        split
        · exact h.java
        · exact isSome_get?_insert h.java ..
      · rw [Java.onDelta]
        repeat' split
        all_goals first
          | exact h.java
          | exact isSome_get?_insert h.java ..
      · exact h.java
    · exact h.java

end Clients

/-! ### The frames of a subscription -/

inductive FeedEvent where
  | init (seq : ℕ) (params : Option Value)
  | write (seq : ℕ) (call : Call)

variable {call : Call}

namespace FeedEvent

def emitted (streamId : ℕ) (key : String) (srv : SodpServer) : FeedEvent → List OutboundMsg
  | .init seq params =>
    let entry := srv.readEntry key
    [.stateInit streamId seq key entry.1 entry.2.1 entry.2.2 params]
  | .write seq call =>
    match (srv.state.exec call).2 with
    | none => []
    | some (version, ops) =>
      if call.key = key ∧ ¬ ops.isEmpty then [.delta streamId seq version ops] else []

def after (srv : SodpServer) : FeedEvent → SodpServer
  | .init _ _ => srv
  | .write _ call => { srv with state := (srv.state.exec call).1 }

section Queue
variable {srv : SodpServer} {session : Session} {s : String} {streamId : ℕ} {key : String}

theorem sendStateInit_emitted {params : Option Value}
    (hopen : ((srv.sendStateInit session streamId key params (srv.readEntry key)).1.handles
      session.id).cancelled = false) :
    (srv.sendStateInit session streamId key params (srv.readEntry key)).1.handles session.id =
      (srv.handles session.id).push
        ((FeedEvent.init session.nextSeq.2 params).emitted streamId key srv) := by
  rw [sendStateInit_of_open hopen, if_pos rfl]
  rfl

theorem commit_emitted (hkey : call.key = key) (hreached : srv.reached session key s = [streamId])
    (hopen : ((srv.commit session call).1.handles s).cancelled = false) :
    (srv.commit session call).1.handles s =
      (srv.handles s).push ((FeedEvent.write 0 call).emitted streamId key srv) := by
  rw [(commit_of_open hopen).2, hkey, hreached, emitted]
  cases hresult : (srv.state.exec call).2 with
  | none =>
    have hops : opsOf srv.state call = [] := by
      rw [opsOf, hresult]
      rfl
    rw [if_pos hops]
  | some result =>
    obtain ⟨_, ops⟩ := result
    rw [opsOf_of_result hresult, ← version_exec hresult]
    cases ops <;> simp [hkey]

end Queue

end FeedEvent

def feed (streamId : ℕ) (key : String) : SodpServer → List FeedEvent → List OutboundMsg
  | _, [] => []
  | srv, e :: events => e.emitted streamId key srv ++ feed streamId key (e.after srv) events

def feedEnd (srv : SodpServer) (events : List FeedEvent) : SodpServer :=
  events.foldl FeedEvent.after srv

theorem feed_append (streamId : ℕ) (key : String) (srv : SodpServer)
    (events more : List FeedEvent) : feed streamId key srv (events ++ more) =
      feed streamId key srv events ++ feed streamId key (feedEnd srv events) more := by
  induction events generalizing srv with
  | nil => rfl
  | cons e events ih =>
    rw [cons_append, feed, feed, ih, append_assoc]
    rfl

def OutboundMsg.isStateInit : OutboundMsg → Bool
  | .stateInit .. => true
  | _ => false

def OutboundMsg.deletes : OutboundMsg → Bool
  | .delta _ _ _ ops => Client.SodpClient.isDeleted ops
  | _ => false

def OutboundMsg.addsProto : OutboundMsg → Bool
  | .delta _ _ _ ops => ops.any DeltaOp.addsProto
  | _ => false

def heard (msgs : List OutboundMsg) : List OutboundMsg :=
  msgs.dropWhile fun m => ! m.isStateInit

theorem heard_concat (msgs : List OutboundMsg) (m : OutboundMsg) : heard (msgs ++ [m]) =
      if heard msgs = [] then if m.isStateInit then [m] else [] else heard msgs ++ [m] := by
  simp only [heard, List.dropWhile_append, List.isEmpty_iff]
  cases hm : m.isStateInit <;> simp [hm]

theorem mem_heard_append {msgs : List OutboundMsg} {m : OutboundMsg} (hm : m ∈ heard msgs)
    (more : List OutboundMsg) : m ∈ heard (msgs ++ more) := by
  have hne : (msgs.dropWhile fun m => ! m.isStateInit).isEmpty ≠ true := by
    rw [ne_eq, List.isEmpty_iff]
    exact ne_nil_of_mem hm
  rw [heard, dropWhile_append, if_neg hne]
  exact mem_append_left _ hm

structure Followed (streamId : ℕ) (key : String) (srv : SodpServer) (msgs : List OutboundMsg)
    (c : Clients) : Prop where
  keys : (srv.state.valueOf key).AllKeys PathKey
  watched : c.Watched key
  shows : heard msgs ≠ [] → ∃ w, w.value = srv.state.valueOf key ∧
    c.Shows streamId key w ((heard msgs).getLast?.any OutboundMsg.deletes)

section Steps
variable {streamId : ℕ} {key : String} {srv : SodpServer} {msgs : List OutboundMsg} {c : Clients}

section
variable (h : Followed streamId key srv msgs c)
include h

theorem Followed.init {seq : ℕ} {params : Option Value}
    (hlong : ∀ m ∈ (FeedEvent.init seq params).emitted streamId key srv, m.magnitude < 2 ^ 63) :
    Followed streamId key srv (msgs ++ (FeedEvent.init seq params).emitted streamId key srv)
      (c.handleFrames ((FeedEvent.init seq params).emitted streamId key srv)) := by
  rw [FeedEvent.emitted] at hlong ⊢
  refine ⟨h.keys, h.watched.handleFrame _, fun _ => ⟨⟨(srv.readEntry key).1,
    (srv.readEntry key).2.1, (srv.readEntry key).2.2⟩, srv.readEntry_value key, ?_⟩⟩
  have hlast : ∀ m : OutboundMsg, m.isStateInit = true →
      (heard (msgs ++ [m])).getLast? = some m := by
    intro m hm
    rw [heard_concat, if_pos hm]
    split_ifs
    · rfl
    · rw [getLast?_concat]
  rw [hlast _ rfl]
  exact Clients.Shows.stateInit h.watched (hlong _ mem_cons_self)

theorem Followed.silent {next : SodpServer} (hnext : (next.state.get key).map StateEntry.value =
      (srv.state.get key).map StateEntry.value) : Followed streamId key next msgs c := by
  have hvalue : next.state.valueOf key = srv.state.valueOf key := by
    rw [valueOf, hnext, valueOf]
  exact ⟨hvalue ▸ h.keys, h.watched, hvalue ▸ h.shows⟩

theorem Followed.delta (hkey : key ≠ "")
    (hcall : (call.value.getD .null).AllKeys PathKey) (hcallkey : call.key = key) {seq version : ℕ}
    (hlong : (OutboundMsg.delta streamId seq version (srv.state.opsOf call)).magnitude < 2 ^ 63)
    (hproto : ∀ m ∈ heard (msgs ++ [.delta streamId seq version (srv.state.opsOf call)]),
      m.addsProto = false) : Followed streamId key { srv with state := (srv.state.exec call).1 }
      (msgs ++ [.delta streamId seq version (srv.state.opsOf call)])
      (c.handleFrame (.delta streamId seq version (srv.state.opsOf call))) := by
  have hafter : (srv.state.exec call).1.valueOf key = call.value.getD .null := by
    rw [valueOf, content_exec, if_pos hcallkey.symm]
  refine ⟨hafter ▸ hcall, h.watched.handleFrame _, fun hheard => ?_⟩
  rw [heard_concat] at hproto hheard ⊢
  by_cases hsome : heard msgs = []
  · rw [if_pos hsome] at hheard
    exact absurd rfl hheard
  · obtain ⟨w, hw, hshows⟩ := h.shows hsome
    rw [if_neg hsome] at hproto ⊢
    have hadds := hproto _ (mem_append_right _ mem_cons_self)
    rw [OutboundMsg.addsProto, List.any_eq_false, opsOf_eq_stepOps, hcallkey] at hadds
    obtain ⟨hscript, hpython, hjava⟩ := applyOps_stepOps_clients h.keys hcall fun op hop =>
      Bool.eq_false_iff.mpr (hadds op hop)
    rw [← hcallkey, ← opsOf_eq_stepOps, hcallkey] at hscript hpython hjava
    rw [getLast?_concat]
    refine ⟨⟨version, call.value.getD .null,
      ! Client.SodpClient.isDeleted (srv.state.opsOf call)⟩, hafter.symm, ?_⟩
    exact hshows.delta hkey (hw ▸ hscript) (hw ▸ hpython) (hw ▸ hjava) hlong

theorem Followed.write (hkey : key ≠ "") {seq : ℕ} (hcall : (call.value.getD .null).AllKeys PathKey)
    (hlong : ∀ m ∈ (FeedEvent.write seq call).emitted streamId key srv, m.magnitude < 2 ^ 63)
    (hproto : ∀ m ∈ heard (msgs ++ (FeedEvent.write seq call).emitted streamId key srv),
      m.addsProto = false) : Followed streamId key ((FeedEvent.write seq call).after srv)
      (msgs ++ (FeedEvent.write seq call).emitted streamId key srv)
      (c.handleFrames ((FeedEvent.write seq call).emitted streamId key srv)) := by
  rw [FeedEvent.emitted] at hlong hproto ⊢
  cases hresult : (srv.state.exec call).2 with
  | none =>
    rw [append_nil]
    exact h.silent (content_exec_of_quiet (.inl hresult) key)
  | some result =>
    obtain ⟨version, ops⟩ := result
    rw [hresult] at hlong hproto
    dsimp only at hlong hproto ⊢
    split_ifs at hlong hproto ⊢ with hemit
    · obtain rfl := opsOf_of_result hresult
      exact h.delta hkey hcall hemit.1 (hlong _ mem_cons_self) hproto
    · rw [append_nil]
      refine h.silent ?_
      by_cases hcallkey : call.key = key
      · have hempty : ops = [] := by
          by_contra hne
          exact hemit ⟨hcallkey, by simpa using hne⟩
        exact content_exec_of_quiet (.inr ⟨version, hempty ▸ hresult⟩) key
      · change ((srv.state.exec call).1.get key).map StateEntry.value = _
        rw [content_exec, if_neg (Ne.symm hcallkey)]

end

end Steps

def FeedEvent.PathKeys : FeedEvent → Prop
  | .init .. => True
  | .write _ call => (call.value.getD .null).AllKeys PathKey

instance : DecidablePred FeedEvent.PathKeys
  | .init .. => .isTrue trivial
  | .write _ call => Value.decidableAllKeys PathKey (call.value.getD .null)

theorem followed_feed {streamId : ℕ} {key : String} (hkey : key ≠ "") {srv : SodpServer}
    (hstore : (srv.state.valueOf key).AllKeys PathKey) {events : List FeedEvent}
    (hevents : ∀ e ∈ events, e.PathKeys) {c : Clients} (hc : c.Watched key)
    (hints : ∀ m ∈ feed streamId key srv events, m.magnitude < 2 ^ 53)
    (hproto : ∀ m ∈ heard (feed streamId key srv events), m.addsProto = false) :
    Followed streamId key (feedEnd srv events) (feed streamId key srv events)
      (c.handleFrames (feed streamId key srv events)) := by
  induction events using List.reverseRecOn with
  | nil => exact ⟨hstore, hc, fun hheard => absurd rfl hheard⟩
  | append_singleton events e ih =>
    have he := hevents e (mem_append_right _ mem_cons_self)
    have hend : feedEnd srv (events ++ [e]) = e.after (feedEnd srv events) :=
      foldl_append ..
    have hframes : feed streamId key srv (events ++ [e]) =
        feed streamId key srv events ++ e.emitted streamId key (feedEnd srv events) := by
      rw [feed_append, feed, feed, append_nil]
    have hclients : ∀ msgs more, c.handleFrames (msgs ++ more) =
        (c.handleFrames msgs).handleFrames more := fun msgs more => foldl_append ..
    rw [hframes] at hints hproto
    have hprior := ih (fun e' he' => hevents e' (mem_append_left _ he'))
      (fun m hm => hints m (mem_append_left _ hm)) fun m hm => hproto m (mem_heard_append hm _)
    have hlong : ∀ m ∈ e.emitted streamId key (feedEnd srv events), m.magnitude < 2 ^ 63 :=
      fun m hm => (hints m (mem_append_right _ hm)).trans (by decide)
    rw [hend, hframes, hclients]
    cases e with
    | init => exact hprior.init hlong
    | write => exact hprior.write hkey he hlong hproto

/-- The Java client has bound its own number. -/
def newWatchers (key : String) : Clients where
  script := Client.SodpClient.new.register none key
  python := ⟨OrderedMap.empty.insert key ⟨0, .null, false⟩, .empty⟩
  java := ⟨OrderedMap.empty.insert key ⟨0, .null, false⟩, OrderedMap.empty.insert 10 key⟩

theorem watched_newWatchers (key : String) : (newWatchers key).Watched key := by
  refine ⟨?_, ?_, ?_⟩
  · rw [newWatchers, Client.SodpClient.register, Client.SodpClient.setEntry, get?_insert_self]
    rfl
  · rw [newWatchers, get?_insert_self]
    rfl
  · rw [newWatchers, get?_insert_self]
    rfl

def recreated : List FeedEvent :=
  [.init 0 none, .write 0 (.apply "k" (.ofFields [("a", .null)])), .write 0 (.delete "k"),
    .write 0 (.apply "k" (.ofFields [("b", .null)]))]

end Sodp
