import Sodp.Convergence

/-!
# Several nodes that share Redis

A mutation of one node is written to the shared hash and its delta is published; here this has
reached all nodes before the next event. The subscriber of a node gives the delta to the fanout
and not to the store. So the nodes agree on the content of a key after a mutation only where the
mutation has not changed it, or where there is no other node.
-/

namespace Sodp
open Client StateStore Function Transition List Option SodpClient
open OrderedMap hiding keys

/-! ### Calls and what is synced -/

namespace StateStore

def content (s : StateStore) (key : String) : Option Value := (s.get key).map StateEntry.value

def loadEntries (s : StateStore) (entries : List (String × ℕ × Value)) : StateStore :=
  let loaded := entries.foldl (fun acc (key, version, value) =>
    if ((acc.get? key).map StateEntry.version).getD 0 < version
    then acc.insert key ⟨version, value⟩ else acc) s.entries
  { s with
    entries := loaded
    globalVersion := (entries.map fun e => e.2.1).foldl max s.globalVersion }

theorem valueOf_eq_content (s : StateStore) (key : String) :
    s.valueOf key = (s.content key).getD .null := by
  rw [valueOf, content]

theorem opsOf_eq_nil_iff (s : StateStore) (call : Call) :
    s.opsOf call = [] ↔ call.value = s.content call.key := by
  rw [opsOf_eq_stepOps, content]
  cases (s.get call.key).map StateEntry.value with
  | none => cases call.value <;> simp [stepOps]
  | some =>
    cases call.value with
    | none => simp [stepOps]
    | some => rw [stepOps, Delta.diff_eq_nil_iff, some.injEq, eq_comm]

end StateStore

/-- One mutation on its way to Redis; without a value the key is deleted. -/
structure Sync where
  key : String
  version : ℕ
  ops : List DeltaOp
  value : Option Value

variable {s : StateStore}

namespace Sync

def ofCall (s : StateStore) (call : Call) : List Sync :=
  match (s.exec call).2 with
  | none => []
  | some (version, ops) => if ops.isEmpty then [] else [⟨call.key, version, ops, call.value⟩]

def ofCalls : StateStore → List Call → List Sync
  | _, [] => []
  | s, call :: calls => ofCall s call ++ ofCalls (s.exec call).1 calls

def store (hash : OrderedMap String (ℕ × Value)) (sync : Sync) : OrderedMap String (ℕ × Value) :=
  match sync.value with
  | some value => hash.insert sync.key (sync.version, value)
  | none => hash.erase sync.key

theorem ofCall_cases (s : StateStore) (call : Call) :
    (call.value = s.content call.key ∧ ofCall s call = []) ∨ (call.value ≠ s.content call.key ∧
      ∃ version ops, ofCall s call = [⟨call.key, version, ops, call.value⟩]) := by
  rw [Ne, ← opsOf_eq_nil_iff, opsOf, ofCall]
  cases (s.exec call).2 with
  | none => exact .inl ⟨rfl, rfl⟩
  | some r =>
    obtain ⟨version, ops⟩ := r
    cases ops with
    | nil => exact .inl ⟨rfl, rfl⟩
    | cons op ops => exact .inr ⟨cons_ne_nil op ops, version, op :: ops, rfl⟩

theorem ofCall_of_same {call : Call} (h : call.value = s.content call.key) :
    ofCall s call = [] := by
  rcases ofCall_cases s call with ⟨-, hnil⟩ | ⟨hne, -⟩
  · exact hnil
  · exact absurd h hne

theorem content_exec_of_same {call : Call} (h : call.value = s.content call.key) (key : String) :
    (s.exec call).1.content key = s.content key :=
  content_exec_of_opsOf ((opsOf_eq_nil_iff s call).mpr h) key

theorem ofCalls_of_same {calls : List Call} (h : ∀ call ∈ calls, call.value = s.content call.key) :
    ofCalls s calls = [] ∧ ∀ key, (s.execAll calls).content key = s.content key := by
  induction calls generalizing s with
  | nil => exact ⟨rfl, fun _ => rfl⟩
  | cons call calls ih =>
    rw [forall_mem_cons] at h
    have hsame := content_exec_of_same h.1
    obtain ⟨hnil, hcontent⟩ := ih fun c hc => (h.2 c hc).trans (hsame c.key).symm
    rw [ofCalls, ofCall_of_same h.1, hnil]
    exact ⟨rfl, fun key => (hcontent key).trans (hsame key)⟩

theorem get?_store (hash : OrderedMap String (ℕ × Value)) (sync : Sync) (key : String) :
    ((store hash sync).get? key).map Prod.snd =
      if key = sync.key then sync.value else (hash.get? key).map Prod.snd := by
  rw [store]
  cases sync.value with
  | none =>
    rw [get?_erase]
    split_ifs <;> rfl
  | some =>
    rw [get?_insert]
    split_ifs <;> rfl

theorem content_store_ofCalls {hash : OrderedMap String (ℕ × Value)}
    (h : ∀ key, (hash.get? key).map Prod.snd = s.content key) (calls : List Call) (key : String) :
    (((ofCalls s calls).foldl store hash).get? key).map Prod.snd =
      (s.execAll calls).content key := by
  induction calls generalizing s hash with
  | nil => exact h key
  | cons call calls ih =>
    rw [ofCalls, foldl_append]
    refine ih fun j => ?_
    rcases ofCall_cases s call with ⟨hsame, hnil⟩ | ⟨-, _, _, hone⟩
    · rw [hnil, content_exec_of_same hsame j]
      exact h j
    · rw [hone, foldl_cons, foldl_nil, get?_store, h j]
      exact (content_exec s call j).symm

end Sync

namespace Network

section Calls
variable {ι : Type*}

def calls (net : Network ι) (e : Event ι) : List Call :=
  match e.input, (net.peer e.peer).session with
  | .call body, some session =>
    net.server.frameCalls session ((net.peer e.peer).client.call body).2 e.now
  | .disconnect, some session => SodpServer.cleanupCalls net.server.state session.presence
  | _, _ => []

theorem state_handleFrames {frames : List Frame} (h : ∀ frame ∈ frames, frame.frameType ≠ .call)
    (now : ℕ) (acc : SodpServer × Session) :
    (handleFrames now acc frames).1.state = acc.1.state := by
  induction frames generalizing acc with
  | nil => rfl
  | cons frame frames ih =>
    rw [forall_mem_cons] at h
    refine (ih h.2 _).trans ?_
    rw [(acc.1.handleFrame_effects acc.2 frame now).state, SodpServer.frameCalls, if_neg h.1]
    rfl

theorem calls_call (net : Network ι) (i : ι) (now : ℕ) (body : Value) :
    net.calls ⟨i, now, .call body⟩ = [] ∨ ∃ call, net.calls ⟨i, now, .call body⟩ = [call] := by
  rw [calls]
  cases (net.peer i).session with
  | none => exact .inl rfl
  | some session =>
    simp only [SodpServer.frameCalls]
    split_ifs
    · cases net.server.acceptedRequest session ((net.peer i).client.call body).2 now with
      | none => exact .inl rfl
      | some request => exact .inr ⟨request.call, rfl⟩
    · exact .inl rfl

variable [DecidableEq ι] {net net' : Network ι} {e : Event ι}

theorem state_exchange {sent : SodpClient × List Frame}
    (h : ∀ frame ∈ sent.2, frame.frameType ≠ .call) (net : Network ι) (i : ι) (now : ℕ) :
    (net.exchange i now sent).server.state = net.server.state := by
  rw [exchange]
  cases (net.peer i).session with
  | none => rfl
  | some session => exact state_handleFrames h now (net.server, session)

theorem state_step (h : net.step e = some net') :
    net'.server.state = net.server.state.execAll (net.calls e) := by
  obtain ⟨i, now, _⟩ := e
  rw [step] at h
  dsimp only at h
  split at h
  · cases h
    exact state_exchange (onReady_frameType _) _ i now
  · cases h
    exact state_exchange (watch_frameType _ _ _) net i now
  · cases h
    exact state_exchange (watchMany_frameType _ _ _) net i now
  · cases h
    exact state_exchange (by simp) net i now
  · cases h
    exact state_exchange (unwatch_frameType _ _) net i now
  · next body session hsession =>
    cases h
    simp only [calls, exchange, hsession]
    exact (net.server.handleFrame_effects session ((net.peer i).client.call body).2 now).state
  · split at h
    · cases h
    · cases h
      rfl
  · next session hsession =>
    cases h
    obtain ⟨_, heffects, hend⟩ := net.server.endSession_eq session
    simp only [calls, hsession, setPeer, hend]
    exact heffects.state
  · cases h

end Calls

end Network

/-! ### The cluster -/

structure Cluster (ν ι : Type*) where
  node : ν → Network ι
  hash : OrderedMap String (ℕ × Value)

namespace Cluster
variable {ν ι : Type*}

def content (c : Cluster ν ι) (b : ν) (key : String) : Option Value :=
  (c.node b).server.state.content key

def Agree (c : Cluster ν ι) : Prop := ∀ a b key, c.content a key = c.content b key

def Shared (c : Cluster ν ι) : Prop :=
  ∀ b key, (c.hash.get? key).map Prod.snd = c.content b key

theorem Shared.agree {c : Cluster ν ι} (h : Shared c) : Agree c :=
  fun a b key => (h a key).symm.trans (h b key)

def loaded (hash : OrderedMap String (ℕ × Value)) : Cluster ν ι where
  node _ := ⟨{ SodpServer.new with state := StateStore.new.loadEntries hash.toList },
    fun _ => ⟨.new, none⟩⟩
  hash := hash

theorem agree_loaded (hash : OrderedMap String (ℕ × Value)) :
    Agree (loaded hash : Cluster ν ι) := fun _ _ _ => rfl

variable [DecidableEq ν]

def handlePubsubMessage (nodeId : ν) (net : Network ι) (msg : ν × Sync) : Network ι :=
  if msg.1 = nodeId then net
  else { net with server := net.server.broadcast msg.2.key msg.2.version msg.2.ops none }

theorem foldl_handlePubsubMessage_self (a : ν) (syncs : List Sync) (net : Network ι) :
    (syncs.map fun sync => (a, sync)).foldl (handlePubsubMessage a) net = net := by
  induction syncs with
  | nil => rfl
  | cons sync syncs ih =>
    rw [map_cons, foldl_cons, handlePubsubMessage, if_pos rfl]
    exact ih

theorem state_foldl_handlePubsubMessage (b : ν) (msgs : List (ν × Sync)) (net : Network ι) :
    (msgs.foldl (handlePubsubMessage b) net).server.state = net.server.state := by
  induction msgs generalizing net with
  | nil => rfl
  | cons msg msgs ih =>
    rw [foldl_cons, ih, handlePubsubMessage]
    split_ifs <;> rfl

variable [DecidableEq ι]

def step (c : Cluster ν ι) (e : ν × Network.Event ι) : Option (Cluster ν ι) :=
  ((c.node e.1).step e.2).map fun net =>
    let syncs := Sync.ofCalls (c.node e.1).server.state ((c.node e.1).calls e.2)
    { node := fun b => (syncs.map fun sync => (e.1, sync)).foldl (handlePubsubMessage b)
        (update c.node e.1 net b)
      hash := syncs.foldl Sync.store c.hash }

/-- There is no other node, or the calls of the event store what is there. -/
def Unchanging (c : Cluster ν ι) (e : ν × Network.Event ι) : Prop :=
  (∀ b, b = e.1) ∨
    ∀ call ∈ (c.node e.1).calls e.2, call.value = c.content e.1 call.key

def Steady (c : Cluster ν ι) (e : ν × Network.Event ι) : Prop :=
  (c.node e.1).Fair PlainKey (· ≠ "") e.2 ∧ c.Unchanging e

variable {c c' : Cluster ν ι} {e : ν × Network.Event ι}

/-! ### One event -/

theorem node_step (h : c.step e = some c') : (c.node e.1).step e.2 = some (c'.node e.1) ∧
    ∀ b, b ≠ e.1 → c'.node b =
      ((Sync.ofCalls (c.node e.1).server.state ((c.node e.1).calls e.2)).map
        fun sync => (e.1, sync)).foldl (handlePubsubMessage b) (c.node b) := by
  obtain ⟨_, hnet, rfl⟩ := map_eq_some_iff.mp h
  refine ⟨?_, fun b hb => ?_⟩
  · simp only [hnet, foldl_handlePubsubMessage_self, update_self]
  · simp only [update_of_ne hb]

theorem content_step (h : c.step e = some c') (key : String) : c'.content e.1 key =
      ((c.node e.1).server.state.execAll ((c.node e.1).calls e.2)).content key ∧
    ∀ b, b ≠ e.1 → c'.content b key = c.content b key := by
  obtain ⟨hnet, hothers⟩ := node_step h
  refine ⟨?_, fun b hb => ?_⟩
  · rw [content, Network.state_step hnet]
  · rw [content, hothers b hb, state_foldl_handlePubsubMessage, content]

theorem Agree.step (hc : Agree c) (hun : c.Unchanging e) (h : c.step e = some c') : Agree c' := by
  rcases hun with honly | hsame
  · intro a b key
    rw [honly a, honly b]
  · have hkept : ∀ b key, c'.content b key = c.content b key := by
      intro b key
      obtain ⟨hown, hothers⟩ := content_step h key
      by_cases hb : b = e.1
      · rw [hb, hown]
        exact (Sync.ofCalls_of_same hsame).2 key
      · exact hothers b hb
    intro a b key
    rw [hkept, hkept]
    exact hc a b key

theorem Shared.step (hc : Shared c) (hun : c.Unchanging e) (h : c.step e = some c') :
    Shared c' := by
  have hown : ∀ key, (c'.hash.get? key).map Prod.snd = c'.content e.1 key := by
    intro key
    rw [(content_step h key).1]
    obtain ⟨-, -, rfl⟩ := map_eq_some_iff.mp h
    exact Sync.content_store_ofCalls (hc e.1) _ key
  intro b key
  exact (hown key).trans (hc.agree.step hun h e.1 b key)

theorem Agree.unchanging {a : ν} {i : ι} {now : ℕ} {body : Value} (hc : Agree c)
    (h : c.step (a, ⟨i, now, .call body⟩) = some c') (hc' : Agree c') :
    c.Unchanging (a, ⟨i, now, .call body⟩) := by
  by_cases honly : ∀ b, b = a
  · exact .inl honly
  obtain ⟨b, hb⟩ := not_forall.mp honly
  right
  rcases Network.calls_call (c.node a) i now body with hnil | ⟨call, hone⟩
  · simp [hnil]
  · intro call' hcall
    obtain rfl : call' = call := by simpa [hone] using hcall
    obtain ⟨hown, hothers⟩ := content_step h call'.key
    calc call'.value = (((c.node a).server.state.exec call').1).content call'.key :=
          ((content_exec _ call' call'.key).trans (if_pos rfl)).symm
      _ = c'.content a call'.key := by rw [hown, hone]; rfl
      _ = c'.content b call'.key := hc' a b call'.key
      _ = c.content b call'.key := hothers b hb
      _ = c.content a call'.key := hc b a call'.key

/-! ### Whole runs -/

structure Harmonious (c : Cluster ν ι) : Prop where
  consistent : ∀ b, (c.node b).Consistent
  agree : Agree c

theorem Harmonious.step (hc : Harmonious c) (hsteady : c.Steady e) (h : c.step e = some c') :
    Harmonious c' := by
  obtain ⟨hfair, hun⟩ := hsteady
  refine ⟨fun b => ?_, hc.agree.step hun h⟩
  obtain ⟨hnet, hothers⟩ := node_step h
  by_cases hb : b = e.1
  · subst hb
    exact (hc.consistent e.1).step hfair hnet
  · rcases hun with honly | hsame
    · exact absurd (honly b) hb
    · rw [hothers b hb, (Sync.ofCalls_of_same hsame).1]
      exact hc.consistent b

theorem cluster_converges {start : Cluster ν ι} {events : List (ν × Network.Event ι)}
    (hstart : ∀ b, (start.node b).Initial) (hagree : Agree start)
    (hsteady : Transition.Along step Steady start events) (hrun : run step start events = some c) :
    Agree c ∧ (∀ b i session key, ((c.node b).peer i).session = some session →
      session.watchStreamId key ≠ none →
      ∃ entry, ((c.node b).settled i).watches.get? key = some entry ∧
        ∀ a, entry.value = .ofJson ((c.content a key).getD .null)) ∧ (Shared start → Shared c) ∧
    ∀ a i now body c', c.step (a, ⟨i, now, .call body⟩) = some c' →
      (Agree c' ↔ c.Unchanging (a, ⟨i, now, .call body⟩)) := by
  have hc : Harmonious c := invariant_along (I := Harmonious)
    (fun _ _ _ hs hok hstep => hs.step hok hstep) ⟨fun b => (hstart b).consistent, hagree⟩
    hsteady hrun
  refine ⟨hc.agree, fun b i session key hsession hwatched => ?_, fun hshared => ?_,
    fun a i now body c' h => ⟨hc.agree.unchanging h, fun hun => hc.agree.step hun h⟩⟩
  · obtain ⟨entry, hentry, hvalue⟩ := (hc.consistent b).cached hsession hwatched
    refine ⟨entry, hentry, fun a => ?_⟩
    rw [hvalue, valueOf_eq_content, hc.agree a b key, content]
  · exact invariant_along (I := Shared)
      (fun _ _ _ hs hok hstep => hs.step hok.2 hstep) hshared hsteady hrun

instance decidableUnchanging [Fintype ν] (c : Cluster ν ι) (e : ν × Network.Event ι) :
    Decidable (c.Unchanging e) := by
  unfold Unchanging
  infer_instance

instance decidableSteady [Fintype ν] [Fintype ι] (c : Cluster ν ι) (e : ν × Network.Event ι) :
    Decidable (c.Steady e) :=
  inferInstanceAs (Decidable ((c.node e.1).Fair PlainKey (· ≠ "") e.2 ∧ c.Unchanging e))

end Cluster

namespace Cluster

def oneKey : OrderedMap String (ℕ × Value) :=
  OrderedMap.empty.insert "k" (3, .ofFields [("x", .bool true)])

theorem initial_loaded_oneKey {ν ι : Type*} (b : ν) :
    ((loaded oneKey : Cluster ν ι).node b).Initial := by
  have hplain : PlainStore (StateStore.new.loadEntries oneKey.toList) := by decide +kernel
  exact ⟨rfl, fun _ => rfl, hplain⟩

def watchAndSet {ν : Type*} (a b : ν) (value : Value) : List (ν × Network.Event (Fin 2)) :=
  [(a, ⟨0, 0, .connect "a" none .null⟩), (b, ⟨1, 0, .connect "b" none .null⟩),
    (b, ⟨1, 0, .watch "k" none⟩), (a, ⟨0, 0, .call (Network.setBody "k" value)⟩)]

def watched {ν : Type*} (c : Cluster ν (Fin 2)) (a b : ν) :
    Option ℕ × Option Value × Option Value :=
  (((c.node b).peer 1).session.bind fun session => session.watchStreamId "k",
    c.content a "k", c.content b "k")

theorem cluster_converges_loaded : (∃ c : Cluster (Fin 2) (Fin 2), run step (loaded oneKey)
        (watchAndSet 0 1 (.ofFields [("x", .bool true)])) = some c ∧
      c.content 0 "k" = some (.ofFields [("x", .bool true)]) ∧
      ∃ entry, ((c.node 1).settled 1).watches.get? "k" = some entry ∧
        ∀ a, entry.value = .ofJson ((c.content a "k").getD .null)) ∧
    ∃ c : Cluster (Fin 1) (Fin 2), run step (loaded oneKey)
        (watchAndSet 0 0 (.bool true)) = some c ∧ c.content 0 "k" = some (.bool true) ∧
      ∃ entry, ((c.node 0).settled 1).watches.get? "k" = some entry ∧
        ∀ a, entry.value = .ofJson ((c.content a "k").getD .null) := by
  constructor
  · refine exists_run (fun c => c.watched 0 1 = (some 10, some (.ofFields [("x", .bool true)]),
      some (.ofFields [("x", .bool true)]))) (by decide +kernel) fun c hc hfacts => ?_
    simp only [watched, Prod.mk.injEq] at hfacts
    obtain ⟨session, hsession, hid⟩ := bind_eq_some_iff.mp hfacts.1
    exact ⟨hfacts.2.1, (cluster_converges initial_loaded_oneKey (agree_loaded oneKey)
      (by decide +kernel) hc).2.1 1 1 session "k" hsession (by simp [hid])⟩
  · refine exists_run (fun c => c.watched 0 0 = (some 10, some (.bool true), some (.bool true)))
      (by decide +kernel) fun c hc hfacts => ?_
    simp only [watched, Prod.mk.injEq] at hfacts
    obtain ⟨session, hsession, hid⟩ := bind_eq_some_iff.mp hfacts.1
    exact ⟨hfacts.2.1, (cluster_converges initial_loaded_oneKey (agree_loaded oneKey)
      (by decide +kernel) hc).2.1 0 1 session "k" hsession (by simp [hid])⟩

def watchLater (value : Value) : List (Fin 2 × Network.Event (Fin 2)) :=
  watchAndSet 0 1 value ++
    [(1, ⟨0, 0, .connect "c" none .null⟩), (1, ⟨0, 0, .watch "k" none⟩)]

/-- A value is set on the first of two empty nodes. The hash has it and the client that
watched on the second node has it; `get` on the second node and a client that watches
there later do not. -/
theorem cluster_diverges :
    Transition.Along step (fun c e => (c.node e.1).Fair PlainKey (· ≠ "") e.2)
      (loaded .empty) (watchLater (.bool true)) ∧
    (run step (loaded .empty) (watchLater (.bool true))).map (fun c =>
        ((c.content 0 "k", c.content 1 "k", c.hash.get? "k"),
          ((c.node 1).settled 1).valueAt "k", ((c.node 1).settled 0).valueAt "k")) =
      some ((some (.bool true), none, some (1, .bool true)),
        some (.ofJson (.bool true)), some (.ofJson .null)) := by
  constructor <;> decide +kernel

end Cluster

end Sodp
