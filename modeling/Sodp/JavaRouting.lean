import Sodp.DeltaRouting
import Sodp.ReplicaAgreement

/-!
# Deltas in the Java client

The Java client numbers its requests itself and binds such a number to its key at once, in the table
where `onStateInit` binds the numbers of the server. A multi-key WATCH takes one number and gets one
stream for every key, and the client's counter goes on over reconnects: the two numberings part, and
a number of the client can take the place of a stream that the server has given to another key.

The server and its other connections are those of `Wires`, and the client there stays idle. A frame
that the sender thread finds in `outbound` goes to the connection of that moment. Params and calls
are left out.
-/

namespace Sodp.Java
open Transition Wires Function List Option
open OrderedMap hiding keys

structure SodpClient where
  cache : WatchCache
  /-- of the entry of a key, 0 without one -/
  streamId : String → ℕ
  nextStreamId : ℕ
  seqCounter : ℕ
  authenticated : Bool
  outbound : List Frame

namespace SodpClient

def new : SodpClient := ⟨⟨.empty, .empty⟩, fun _ => 0, 10, 0, false, []⟩

def enqueue (c : SodpClient) (frameType : FrameType) (streamId : ℕ) (body : Value) : SodpClient :=
  { c with
    seqCounter := c.seqCounter + 1
    outbound := c.outbound ++ [⟨frameType, streamId, c.seqCounter + 1, body⟩] }

def subscribeOrResume (c : SodpClient) (key : String) (version : ℕ) : SodpClient :=
  let streamId := c.nextStreamId
  let c := { c with
    nextStreamId := streamId + 1
    streamId := update c.streamId key streamId
    cache := { c.cache with streamToKey := c.cache.streamToKey.insert streamId key } }
  if 0 < version then
    c.enqueue .resume streamId
      (.ofFields [("state", .string key), ("since_version", .number (.int version))])
  else c.enqueue .watch streamId (.ofFields [("state", .string key)])

def subscribe (c : SodpClient) (key : String) : SodpClient :=
  match c.cache.watches.get? key with
  | none => c
  | some entry => if c.streamId key = 0 then c.subscribeOrResume key entry.version else c

/-- `watches.computeIfAbsent` -/
def register (c : SodpClient) (key : String) : SodpClient :=
  { c with cache := { c.cache with
    watches := c.cache.watches.insert key ((c.cache.watches.get? key).getD ⟨0, .null, false⟩) } }

def watch (c : SodpClient) (key : String) : SodpClient :=
  if c.authenticated then (c.register key).subscribe key else c.register key

def watchMany (c : SodpClient) (keys : List String) : SodpClient :=
  let c := keys.foldl register c
  if c.authenticated then
    enqueue { c with nextStreamId := c.nextStreamId + 1 } .watch c.nextStreamId
      (.ofFields [("states", .array (keys.map .string))])
  else c

def unwatch (c : SodpClient) (key : String) : SodpClient :=
  match c.cache.watches.get? key with
  | none => c
  | some _ =>
    let c := { c with
      cache := ⟨c.cache.watches.erase key, if 0 < c.streamId key then
        c.cache.streamToKey.erase (c.streamId key) else c.cache.streamToKey⟩
      streamId := update c.streamId key 0 }
    if c.authenticated then c.enqueue .unwatch 0 (.ofFields [("state", .string key)]) else c

/-- `order` is that of the hash map. -/
def becomeAuthenticated (c : SodpClient) (order : List String) : SodpClient :=
  order.foldl subscribe { c with authenticated := true }

def handleDisconnect (c : SodpClient) : SodpClient :=
  { c with
    authenticated := false
    streamId := fun _ => 0
    cache := { c.cache with streamToKey := .empty } }

def handleFrame (c : SodpClient) (msg : OutboundMsg) : SodpClient :=
  let c := { c with cache := Java.handleFrame c.cache msg }
  match msg with
  | .stateInit streamId _ key _ _ _ _ =>
    if msg.magnitude < 2 ^ 63 ∧ (c.cache.watches.get? key).isSome then
      { c with streamId := update c.streamId key streamId }
    else c
  | .heartbeat => { c with outbound := c.outbound ++ [⟨.heartbeat, 0, 0, .null⟩] }
  | _ => c

end SodpClient

/-- The server and a Java client, with the connection of the client and the messages on it. -/
structure Network where
  wires : Wires
  client : SodpClient
  link : Option String
  wire : List (OutboundMsg × Origin)

inductive Event where
  /-- a step of the server, or another client's -/
  | server (e : Wires.Event)
  | write (s : String)
  | connect (s : String) (now : ℕ) (sub : Option String) (claims : Value) (order : List String)
  | watch (key : String)
  | watchMany (keys : List String)
  | unwatch (key : String)
  | send
  | receive
  | lose

namespace Network

def start (server : SodpServer) : Network := ⟨.start server, .new, none, []⟩

def allows (c : Network) : Wires.Event → Bool
  | .task .. | .close _ | .join .. => true
  | .arrive s _ => c.link ≠ some s
  | _ => false

def step (c : Network) : Event → Option Network
  | .server e => if c.allows e then (c.wires.step e).map ({ c with wires := · }) else none
  | .write s => (c.wires.step (.write s)).map fun wires => { c with
      wires := wires
      wire := if c.link = some s then
        c.wire ++ ((c.wires.server.handles s).queue.zip (c.wires.origins s)).take 1 else c.wire }
  | .connect s now sub claims order =>
    if c.link = none ∧ order.Perm (c.client.cache.watches.toList.map Prod.fst) then
      (c.wires.step (.join s now sub claims)).map
        (⟨·, c.client.becomeAuthenticated order, some s, []⟩)
    else none
  | .watch key => some { c with client := c.client.watch key }
  | .watchMany keys => some { c with client := c.client.watchMany keys }
  | .unwatch key => some { c with client := c.client.unwatch key }
  | .send =>
    match c.client.outbound with
    | [] => none
    | frame :: outbound =>
      let c := { c with client := { c.client with outbound := outbound } }
      match c.link with
      | none => some c
      | some s => (c.wires.step (.arrive s frame)).map ({ c with wires := · })
  | .receive =>
    match c.wire with
    | [] => none
    | (msg, _) :: wire => some { c with client := c.client.handleFrame msg, wire := wire }
  | .lose =>
    if c.link = none then none else some ⟨c.wires, c.client.handleDisconnect, none, []⟩

/-! ### Two numberings apart -/

/-- A number that the client is about to bind is no stream of another key on the connection, and a
stream that the server is about to open is no number of another key. -/
def Apart (c : Network) : Event → Prop
  | .watch key => c.client.authenticated = true → c.client.streamId key = 0 →
    ∀ conn ∈ c.link.bind c.wires.connection,
      conn.session.nextStreamId ≤ c.client.nextStreamId ∨
        (conn.session.watches.get? c.client.nextStreamId).map WatchEntry.stateKey = some key
  | .server e => ∀ o ∈ c.wires.opened e, c.link = some o.1 →
    ∀ j ∈ c.client.cache.streamToKey.get? o.2.1, j = o.2.2
  | _ => True

instance decidableApart (c : Network) : (e : Event) → Decidable (c.Apart e)
  | .watch _ => inferInstanceAs (Decidable (_ → _ → ∀ conn ∈ c.link.bind c.wires.connection, _ ∨ _))
  | .server e => inferInstanceAs (Decidable (∀ o ∈ c.wires.opened e, _ →
      ∀ j ∈ c.client.cache.streamToKey.get? o.2.1, _ = _))
  | .write _ | .connect .. | .watchMany _ | .unwatch _ | .send | .receive | .lose => .isTrue trivial

/-- A binding of the client is the server's, if the server has given the number to a key. -/
def Agrees (σ : ℕ → Option String) (streamToKey : OrderedMap ℕ String) : Prop :=
  ∀ n j k, streamToKey.get? n = some j → σ n = some k → j = k

structure Carried (σ : String → ℕ → Option String) (c : Network) : Prop where
  routed : Routed σ c.wires
  wire : ∀ m ∈ c.wire, ∃ s, c.link = some s ∧ Fits (σ s) m.1 m.2
  agrees : ∀ s, c.link = some s → Agrees (σ s) c.client.cache.streamToKey

variable {client : SodpClient} {c c' : Network}

section
variable {σ : ℕ → Option String}

theorem agrees_of_none (h : ∀ n, σ n = none) (t : OrderedMap ℕ String) : Agrees σ t := by
  intro n j k _ hk
  rw [h n] at hk
  cases hk

theorem Agrees.insert {t : OrderedMap ℕ String} (h : Agrees σ t) {n : ℕ} {key : String}
    (hkey : ∀ k, σ n = some k → key = k) : Agrees σ (t.insert n key) := by
  intro m j k hj hk
  rw [get?_insert] at hj
  split_ifs at hj with hm
  · cases hj
    exact hkey k (hm ▸ hk)
  · exact h m j k hj hk

variable (h : Agrees σ client.cache.streamToKey)
include h

theorem Agrees.watch {key : String} (hput : client.authenticated = true →
      client.streamId key = 0 → ∀ k, σ client.nextStreamId = some k → key = k) :
    Agrees σ (client.watch key).cache.streamToKey := by
  rw [SodpClient.watch]
  split_ifs with hauth
  · rw [SodpClient.subscribe]
    split
    · exact h
    · split_ifs with hid
      · have hinsert := h.insert (hput hauth hid)
        rw [SodpClient.subscribeOrResume]
        split <;> exact hinsert
      · exact h
  · exact h

theorem Agrees.watchMany (keys : List String) :
    Agrees σ (client.watchMany keys).cache.streamToKey := by
  have hregister : ∀ client : SodpClient,
      (keys.foldl SodpClient.register client).cache.streamToKey = client.cache.streamToKey := by
    induction keys with
    | nil => exact fun _ => rfl
    | cons key keys ih => exact fun client => ih (client.register key)
  rw [SodpClient.watchMany]
  split <;> exact (hregister client).symm ▸ h

theorem Agrees.unwatch (key : String) : Agrees σ (client.unwatch key).cache.streamToKey := by
  rw [SodpClient.unwatch]
  split
  · exact h
  · have hleft : Agrees σ (if 0 < client.streamId key then
        client.cache.streamToKey.erase (client.streamId key) else client.cache.streamToKey) := by
      intro n j k hj
      refine h n j k ?_
      split_ifs at hj
      · rw [get?_erase] at hj
        exact (ite_none_left_eq_some.mp hj).2
      · exact hj
    dsimp only
    split <;> exact hleft

end

theorem streamToKey_onStateInit (cache : WatchCache) (streamId : ℕ) (key : String)
    (entry : CachedWatch) : (onStateInit cache streamId key entry).streamToKey =
      cache.streamToKey.insert streamId key := by
  rw [onStateInit]
  split <;> rfl

theorem onDelta_keeps (cache : WatchCache) (streamId version : ℕ) (ops : List DeltaOp) :
    (onDelta cache streamId version ops).streamToKey = cache.streamToKey ∧
      ∀ j, cache.streamToKey.get? streamId ≠ some j →
        (onDelta cache streamId version ops).watches.get? j = cache.watches.get? j := by
  rw [onDelta]
  split
  · exact ⟨rfl, fun _ _ => rfl⟩
  next hkey =>
    split
    · exact ⟨rfl, fun _ _ => rfl⟩
    · split
      refine ⟨rfl, fun j hj => get?_insert_of_ne _ (fun heq => ?_) _⟩
      exact hj (heq ▸ hkey)

theorem handleFrame_cache (client : SodpClient) (msg : OutboundMsg) :
    (client.handleFrame msg).cache = Java.handleFrame client.cache msg := by
  cases msg with
  | stateInit => simp only [SodpClient.handleFrame, apply_ite SodpClient.cache, ite_self]
  | _ => simp only [SodpClient.handleFrame]

theorem Agrees.handleFrame {σ : ℕ → Option String} (h : Agrees σ client.cache.streamToKey)
    {msg : OutboundMsg} {origin : Origin} (hfits : Fits σ msg origin) :
    Agrees σ (client.handleFrame msg).cache.streamToKey := by
  rw [handleFrame_cache, Java.handleFrame.eq_def]
  split_ifs
  · cases msg with
    | stateInit =>
      dsimp only
      rw [streamToKey_onStateInit]
      exact h.insert fun k hk => some.inj (hfits.symm.trans hk)
    | delta =>
      dsimp only
      rw [(onDelta_keeps ..).1]
      exact h
    | _ => exact h
  · exact h

/-! ### What a step keeps -/

variable {σ : String → ℕ → Option String}

theorem Carried.serve (h : Carried σ c) {e : Wires.Event} {wires : Wires}
    (hstep : c.wires.step e = some wires)
    (hopens : ∀ s, c.link = some s →
      Agrees (grown σ (c.wires.opened e) s) c.client.cache.streamToKey) :
    Carried (grown σ (c.wires.opened e)) { c with wires := wires } := by
  refine ⟨h.routed.step hstep, fun m hm => ?_, hopens⟩
  obtain ⟨s, hlink, hfits⟩ := h.wire m hm
  exact ⟨s, hlink, hfits.mono (h.routed.extends_opened e)⟩

/-- The stream that the server opens is bound to no other key. -/
theorem Carried.agrees_opened (h : Carried σ c) {e : Wires.Event} (hapart : c.Apart (.server e))
    {s : String} (hlink : c.link = some s) :
    Agrees (grown σ (c.wires.opened e) s) c.client.cache.streamToKey := by
  cases hopened : c.wires.opened e with
  | none => exact h.agrees s hlink
  | some opened =>
    intro n j k hj hk
    rw [grown, assign, update_apply] at hk
    split_ifs at hk with hs
    · rw [update_apply] at hk
      split_ifs at hk with hn
      · cases hk
        exact hapart opened hopened (hs ▸ hlink) j (hn ▸ hj)
      · exact h.agrees s hlink n j k hj (hs ▸ hk)
    · exact h.agrees s hlink n j k hj hk

theorem Carried.put (h : Carried σ c) {key : String} (hapart : c.Apart (.watch key)) {s : String}
    (hlink : c.link = some s) (hauth : c.client.authenticated = true)
    (hid : c.client.streamId key = 0) {k : String} (hk : σ s c.client.nextStreamId = some k) :
    key = k := by
  cases hconn : c.wires.connection s with
  | none =>
    rw [h.routed.fresh s hconn] at hk
    cases hk
  | some conn =>
    have htable := h.routed.table s conn hconn
    rcases hapart hauth hid conn (by rw [hlink]; exact hconn) with hnext | hentry
    · exact absurd (htable.next _ k hk) (by omega)
    · obtain ⟨entry, hget, rfl⟩ := map_eq_some_iff.mp hentry
      exact some.inj ((htable.watches _ entry hget).symm.trans hk)

theorem Carried.write (h : Carried σ c) {s : String} (hstep : c.step (.write s) = some c') :
    Carried σ c' := by
  obtain ⟨wires, hwires, rfl⟩ := map_eq_some_iff.mp hstep
  have hserved := h.serve hwires h.agrees
  refine { hserved with wire := fun m hm => ?_ }
  split_ifs at hm with hlink
  · rcases mem_append.mp hm with hm | hm
    · exact hserved.wire m hm
    · exact ⟨s, hlink, List.forall₂_zip (h.routed.queued s) (mem_of_mem_take hm)⟩
  · exact hserved.wire m hm

theorem Carried.send (h : Carried σ c) (hstep : c.step .send = some c') : Carried σ c' := by
  rw [Network.step] at hstep
  split at hstep
  · cases hstep
  next outbound _ =>
    have hsent : Carried σ { c with client := { c.client with outbound := outbound } } :=
      ⟨h.routed, h.wire, h.agrees⟩
    dsimp only at hstep
    split at hstep
    · cases hstep
      exact hsent
    · obtain ⟨wires, hwires, rfl⟩ := map_eq_some_iff.mp hstep
      exact hsent.serve hwires hsent.agrees

theorem Carried.step {e : Event} (h : Carried σ c) (hapart : c.Apart e)
    (hstep : c.step e = some c') : ∃ τ, Carried τ c' := by
  cases e with
  | server =>
    obtain ⟨-, hstep⟩ := ite_none_right_eq_some.mp hstep
    obtain ⟨wires, hwires, rfl⟩ := map_eq_some_iff.mp hstep
    exact ⟨_, h.serve hwires fun s => h.agrees_opened hapart⟩
  | write => exact ⟨σ, h.write hstep⟩
  | connect s now sub claims order =>
    obtain ⟨⟨hlink, -⟩, hstep⟩ := ite_none_right_eq_some.mp hstep
    obtain ⟨wires, hwires, rfl⟩ := map_eq_some_iff.mp hstep
    -- no stream of the new connection is given yet
    have hnew : c.wires.connection s = none := by
      rw [Wires.step] at hwires
      split at hwires
      · assumption
      · cases hwires
    refine ⟨σ, h.routed.step hwires, fun m hm => absurd hm not_mem_nil, fun s' hs => ?_⟩
    cases hs
    exact agrees_of_none (h.routed.fresh s hnew) _
  | watch key =>
    cases hstep
    refine ⟨σ, h.routed, h.wire, fun s hlink => (h.agrees s hlink).watch fun hauth hid k => ?_⟩
    exact h.put hapart hlink hauth hid
  | watchMany keys =>
    cases hstep
    exact ⟨σ, h.routed, h.wire, fun s hlink => (h.agrees s hlink).watchMany keys⟩
  | unwatch key =>
    cases hstep
    exact ⟨σ, h.routed, h.wire, fun s hlink => (h.agrees s hlink).unwatch key⟩
  | send => exact ⟨σ, h.send hstep⟩
  | receive =>
    rw [Network.step] at hstep
    split at hstep
    · cases hstep
    next hwire =>
      cases hstep
      have hmsgs := h.wire
      rw [hwire, forall_mem_cons] at hmsgs
      obtain ⟨s, hlink, hfits⟩ := hmsgs.1
      refine ⟨σ, h.routed, hmsgs.2, fun s' hlink' => ?_⟩
      cases some.inj (hlink.symm.trans hlink')
      exact (h.agrees s hlink).handleFrame hfits
  | lose =>
    obtain ⟨-, heq⟩ := ite_none_left_eq_some.mp hstep
    cases heq
    exact ⟨σ, h.routed, fun m hm => absurd hm not_mem_nil, fun s hlink => by cases hlink⟩

/-- As long as the two numberings do not meet in one number for two keys, a DELTA that the server
produced for key `k` is applied to no other entry. -/
theorem java_delta_reaches_its_key {server : SodpServer} {events : List Event}
    {streamId seq version : ℕ} {ops : List DeltaOp} {origin : Origin}
    {rest : List (OutboundMsg × Origin)} (hapart : Along step Apart (start server) events)
    (hrun : run step (start server) events = some c)
    (hwire : c.wire = (.delta streamId seq version ops, origin) :: rest)
    (hreceive : c.step .receive = some c') : ∃ k, origin = .change k ∧
      ∀ j, j ≠ k → c'.client.cache.watches.get? j = c.client.cache.watches.get? j := by
  have hstart : Carried (fun _ _ => none) (start server) :=
    ⟨routed_start server, fun m hm => absurd hm not_mem_nil, fun s hlink => by cases hlink⟩
  obtain ⟨σ, h⟩ := invariant_along (I := fun c => ∃ σ, Carried σ c)
    (fun _ _ _ ⟨_, hI⟩ hok ht => hI.step hok ht) ⟨_, hstart⟩ hapart hrun
  obtain ⟨s, hlink, k, horigin, hk⟩ := h.wire _ (hwire ▸ mem_cons_self)
  rw [Network.step, hwire] at hreceive
  cases hreceive
  refine ⟨k, horigin, fun j hj => ?_⟩
  rw [handleFrame_cache, Java.handleFrame.eq_def]
  split_ifs
  · refine (onDelta_keeps ..).2 j fun hbound => ?_
    exact hj (h.agrees s hlink streamId j k hbound hk)
  · rfl

/-- Another client writes a key, and the server sends the DELTA. -/
def written (key : String) : List Event :=
  [.server (.join "t" 0 none .null), .server (.arrive "t" (Sessions.callFrame "state.set"
    [("state", .string key), ("value", .bool true)]))] ++
  List.replicate 4 (.server (.task "t" 0)) ++ [.write "s"]

def served (n : ℕ) : List Event := List.replicate n (.server (.task "s" 0))

theorem watched_once_reached :
    ∃ c c', run step (start .new) ([.connect "s" 0 none .null [], .watch "a", .send] ++ served 5 ++
        [.write "s", .receive] ++ written "a") = some c ∧ c.step .receive = some c' ∧
      ∃ k, c.wire.map Prod.snd = [.change k] ∧
        ∀ j, j ≠ k → c'.client.cache.watches.get? j = c.client.cache.watches.get? j := by
  obtain ⟨c, hc, c', hc', hwires⟩ : ∃ c ∈ run step (start .new) ([.connect "s" 0 none .null [],
      .watch "a", .send] ++ served 5 ++ [.write "s", .receive] ++ written "a"),
      ∃ c' ∈ c.step .receive, c.wire.map Prod.fst = [.delta 10 0 1 [.add "/" (.bool true)]] := by
    decide +kernel
  simp only [map_eq_cons_iff, map_eq_nil_iff] at hwires
  obtain ⟨⟨-, _⟩, -, hwire, rfl, rfl⟩ := hwires
  obtain ⟨k, horigin, hothers⟩ := java_delta_reaches_its_key (by decide +kernel) hc hwire hc'
  exact ⟨c, c', hc, hc', k, by rw [hwire, horigin]; rfl, hothers⟩

theorem own_number_takes_stream :
    ((run step (start .new) ([.connect "s" 0 none .null [], .watchMany ["a", "b"], .send] ++
        served 10 ++ [.write "s", .write "s", .receive, .receive, .watch "c"] ++ written "b" ++
        [.receive])).map fun c =>
          (c.client.cache.watches.get? "b", c.client.cache.watches.get? "c")) =
      some (some ⟨0, .null, false⟩, some ⟨1, .bool true, true⟩) := by
  decide +kernel

end Network

end Sodp.Java
