import Sodp.Outbound

/-!
# The fanout bus

The registry of subscriptions by state key, and the broadcast of one delta. A subscriber whose
queue is full misses the delta, is cancelled, and loses its subscription to the key. A session that
is still open has got one DELTA for each of its streams of the key.
-/

namespace Sodp
open Function OrderedMap List Option

structure Subscriber where
  sessionId : String
  streamId : ℕ
deriving DecidableEq

structure FanoutBus where
  subscriptions : OrderedMap String (List Subscriber)

variable (bus : FanoutBus) (stateKey sessionId k : String)

namespace FanoutBus

def new : FanoutBus := ⟨.empty⟩

def subscribersOf (bus : FanoutBus) (stateKey : String) : List Subscriber :=
  (bus.subscriptions.get? stateKey).getD []

def subscribe (bus : FanoutBus) (stateKey : String) (sub : Subscriber) : FanoutBus :=
  ⟨bus.subscriptions.insert stateKey (bus.subscribersOf stateKey ++ [sub])⟩

def retain (bus : FanoutBus) (stateKey : String) (keep : Subscriber → Bool) : FanoutBus :=
  match bus.subscriptions.get? stateKey with
  | some subs => ⟨bus.subscriptions.insert stateKey (subs.filter keep)⟩
  | none => bus

def unsubscribe (bus : FanoutBus) (stateKey sessionId : String) : FanoutBus :=
  bus.retain stateKey fun s => s.sessionId ≠ sessionId

def removeSession (bus : FanoutBus) (sessionId : String) : FanoutBus :=
  ⟨bus.subscriptions.map fun subs => subs.filter fun s => s.sessionId ≠ sessionId⟩

def snapshot (bus : FanoutBus) (stateKey : String) (excludeSession : Option String) :
    List Subscriber :=
  (bus.subscribersOf stateKey).filter fun s => excludeSession ≠ some s.sessionId

def sendDelta (version : ℕ) (ops : List DeltaOp) (acc : Handles × List String)
    (sub : Subscriber) : Handles × List String :=
  let sent := acc.1.send sub.sessionId (.delta sub.streamId 0 version ops)
  (sent.1, if sent.2 then acc.2 else acc.2 ++ [sub.sessionId])

def broadcastEncoded (bus : FanoutBus) (handles : Handles) (stateKey : String) (version : ℕ)
    (ops : List DeltaOp) (excludeSession : Option String) : FanoutBus × Handles :=
  let sent := (bus.snapshot stateKey excludeSession).foldl (sendDelta version ops) (handles, [])
  (if sent.2.isEmpty then bus else bus.retain stateKey fun s => s.sessionId ∉ sent.2, sent.1)

@[simp] theorem subscribersOf_new : new.subscribersOf k = [] := by
  simp [subscribersOf, new]

theorem subscribersOf_subscribe (sub : Subscriber) :
    (bus.subscribe stateKey sub).subscribersOf k =
      if k = stateKey then bus.subscribersOf k ++ [sub] else bus.subscribersOf k := by
  rw [subscribersOf, subscribe, get?_insert]
  split_ifs with hk
  · rw [getD_some, hk]
  · rfl

theorem subscribersOf_retain (keep : Subscriber → Bool) :
    (bus.retain stateKey keep).subscribersOf k =
      if k = stateKey then (bus.subscribersOf k).filter keep else bus.subscribersOf k := by
  cases hsubs : bus.subscriptions.get? stateKey with
  | none =>
    simp only [retain, hsubs]
    split_ifs with hk
    · rw [subscribersOf, hk, hsubs]
      rfl
    · rfl
  | some =>
    simp only [retain, hsubs]
    rw [subscribersOf, get?_insert]
    split_ifs with hk
    · rw [getD_some, subscribersOf, hk, hsubs, getD_some]
    · rfl

theorem subscribersOf_removeSession :
    (bus.removeSession sessionId).subscribersOf k =
      (bus.subscribersOf k).filter fun s => s.sessionId ≠ sessionId := by
  rw [subscribersOf, removeSession, get?_map, subscribersOf]
  cases bus.subscriptions.get? k <;> rfl

def streamsOf (bus : FanoutBus) (stateKey sessionId : String) : List ℕ :=
  ((bus.subscribersOf stateKey).filter fun s => s.sessionId = sessionId).map Subscriber.streamId

theorem mem_streamsOf (streamId : ℕ) :
    streamId ∈ bus.streamsOf stateKey sessionId ↔
      ⟨sessionId, streamId⟩ ∈ bus.subscribersOf stateKey := by
  simp only [streamsOf, List.mem_map, List.mem_filter, decide_eq_true_eq]
  constructor
  · rintro ⟨⟨s, n⟩, ⟨hmem, rfl⟩, rfl⟩
    exact hmem
  · intro hmem
    exact ⟨_, ⟨hmem, rfl⟩, rfl⟩

theorem streamsOf_subscribe (s : String) (sub : Subscriber) :
    (bus.subscribe stateKey sub).streamsOf k s =
      bus.streamsOf k s ++ if k = stateKey ∧ s = sub.sessionId then [sub.streamId] else [] := by
  rw [streamsOf, subscribersOf_subscribe]
  by_cases hk : k = stateKey
  · by_cases hs : s = sub.sessionId
    · simp [hk, hs, streamsOf]
    · simp [hk, hs, Ne.symm hs, streamsOf]
  · simp [hk, streamsOf]

theorem filter_session_ne (subs : List Subscriber) (sessionId s : String) :
    (subs.filter fun sub => sub.sessionId ≠ sessionId).filter (fun sub => sub.sessionId = s) =
      if s = sessionId then [] else subs.filter fun sub => sub.sessionId = s := by
  rw [List.filter_filter]
  split_ifs with hs
  · rw [List.filter_eq_nil_iff]
    intro sub _
    simp [hs]
  · apply List.filter_congr
    intro sub _
    by_cases hsub : sub.sessionId = s
    · simp [hsub, hs]
    · simp [hsub]

theorem streamsOf_unsubscribe (s : String) :
    (bus.unsubscribe stateKey sessionId).streamsOf k s =
      if k = stateKey ∧ s = sessionId then [] else bus.streamsOf k s := by
  rw [streamsOf, unsubscribe, subscribersOf_retain, streamsOf]
  by_cases hk : k = stateKey
  · rw [if_pos hk, filter_session_ne]
    by_cases hs : s = sessionId <;> simp [hk, hs]
  · rw [if_neg hk, if_neg fun h => hk h.1]

theorem streamsOf_removeSession (s : String) :
    (bus.removeSession sessionId).streamsOf k s =
      if s = sessionId then [] else bus.streamsOf k s := by
  rw [streamsOf, subscribersOf_removeSession, filter_session_ne, streamsOf]
  split_ifs <;> rfl

section Broadcast
variable {version : ℕ} {ops : List DeltaOp} {s : String} {acc : Handles × List String}
  {subs : List Subscriber}

theorem foldl_sendDelta_cancelled (hc : (acc.1 s).cancelled = true) :
    ((subs.foldl (sendDelta version ops) acc).1 s).cancelled = true := by
  induction subs generalizing acc with
  | nil => exact hc
  | cons sub subs ih =>
    rw [foldl_cons]
    exact ih (Handles.send_cancelled hc _ _)

theorem foldl_sendDelta_sublist (subs : List Subscriber) (acc : Handles × List String) :
    ∃ sent, sent.Sublist ((subs.filter fun sub => sub.sessionId = s).map fun sub =>
        OutboundMsg.delta sub.streamId 0 version ops) ∧
      ((subs.foldl (sendDelta version ops) acc).1 s).queue = (acc.1 s).queue ++ sent := by
  induction subs generalizing acc with
  | nil => exact ⟨[], List.Sublist.refl _, (append_nil _).symm⟩
  | cons sub subs ih =>
    obtain ⟨sent, hsub, hqueue⟩ := ih (sendDelta version ops acc sub)
    rw [foldl_cons, hqueue]
    by_cases hs : sub.sessionId = s
    · rw [filter_cons_of_pos (by simpa using hs), map_cons, sendDelta, ← hs,
        Handles.send_self, WriteHandle.queue_send, append_assoc]
      rw [hs]
      split_ifs
      · exact ⟨_, hsub.cons_cons _, rfl⟩
      · exact ⟨_, hsub.cons _, rfl⟩
    · rw [filter_cons_of_neg (by simpa using hs), sendDelta, Handles.send_of_ne acc.1 (Ne.symm hs)]
      exact ⟨sent, hsub, rfl⟩

theorem foldl_sendDelta_of_open
    (hopen : ((subs.foldl (sendDelta version ops) acc).1 s).cancelled = false) :
    (s ∈ (subs.foldl (sendDelta version ops) acc).2 → s ∈ acc.2) ∧
    (subs.foldl (sendDelta version ops) acc).1 s =
      (acc.1 s).push ((subs.filter fun sub => sub.sessionId = s).map fun sub =>
        .delta sub.streamId 0 version ops) := by
  induction subs generalizing acc with
  | nil => exact ⟨id, (WriteHandle.push_nil _).symm⟩
  | cons sub subs ih =>
    rw [foldl_cons] at hopen ⊢
    by_cases hs : sub.sessionId = s
    · subst hs
      have hfirst : ((acc.1.send sub.sessionId (.delta sub.streamId 0 version ops)).1
          sub.sessionId).cancelled = false := by
        by_contra hc
        rw [foldl_sendDelta_cancelled (by simpa [sendDelta] using hc)] at hopen
        cases hopen
      have hround : sendDelta version ops acc sub = (update acc.1 sub.sessionId
            ((acc.1 sub.sessionId).push [.delta sub.streamId 0 version ops]), acc.2) := by
        rw [sendDelta, Handles.send_of_open hfirst]
        rfl
      rw [hround] at hopen ⊢
      obtain ⟨hslow, hqueue⟩ := ih hopen
      refine ⟨hslow, ?_⟩
      rw [filter_cons_of_pos (by simp), map_cons, hqueue]
      simp only [update_self, WriteHandle.push_push, cons_append, nil_append]
    · obtain ⟨hslow, hqueue⟩ := ih hopen
      rw [hqueue, filter_cons_of_neg (by simpa using hs), sendDelta,
        Handles.send_of_ne acc.1 (Ne.symm hs)]
      refine ⟨fun h => ?_, rfl⟩
      have hmem := hslow h
      rw [sendDelta] at hmem
      split_ifs at hmem
      · exact hmem
      · rcases mem_append.mp hmem with hmem | hmem
        · exact hmem
        · exact absurd (mem_singleton.mp hmem).symm hs

end Broadcast

theorem map_filter_snapshot (s : String) (excludeSession : Option String) (f : ℕ → OutboundMsg) :
    ((bus.snapshot stateKey excludeSession).filter fun sub => sub.sessionId = s).map
        (fun sub => f sub.streamId) =
      if excludeSession = some s then [] else (bus.streamsOf stateKey s).map f := by
  rw [snapshot, List.filter_filter, streamsOf, List.map_map]
  split_ifs with hs
  · rw [List.map_eq_nil_iff, List.filter_eq_nil_iff]
    intro sub _ hsub
    simp only [Bool.and_eq_true, decide_eq_true_eq] at hsub
    exact hsub.2 (by rw [hs, hsub.1])
  · congr 1
    apply List.filter_congr
    intro sub _
    by_cases hsub : sub.sessionId = s
    · simp [hsub, hs]
    · simp [hsub]

variable {handles : Handles}

theorem broadcastEncoded_of_open {bus : FanoutBus} {stateKey : String}
    {version : ℕ} {ops : List DeltaOp} {excludeSession : Option String} {s : String}
    (hopen : ((bus.broadcastEncoded handles stateKey version ops excludeSession).2 s).cancelled =
      false) :
    (∀ k, (bus.broadcastEncoded handles stateKey version ops excludeSession).1.streamsOf k s =
      bus.streamsOf k s) ∧ (bus.broadcastEncoded handles stateKey version ops excludeSession).2 s =
      (handles s).push (if excludeSession = some s then []
        else (bus.streamsOf stateKey s).map fun sid => .delta sid 0 version ops) := by
  obtain ⟨hslow, hqueue⟩ := foldl_sendDelta_of_open hopen
  refine ⟨fun k => ?_, ?_⟩
  · have hkept : ∀ subs : List Subscriber, (subs.filter fun sub => sub.sessionId ∉
        ((bus.snapshot stateKey excludeSession).foldl (sendDelta version ops)
          (handles, [])).2).filter
          (fun sub => sub.sessionId = s) = subs.filter fun sub => sub.sessionId = s := by
      intro subs
      rw [List.filter_filter]
      apply filter_congr
      intro sub _
      by_cases hsub : sub.sessionId = s
      · have hfast : s ∉ ((bus.snapshot stateKey excludeSession).foldl (sendDelta version ops)
            (handles, [])).2 := fun h => not_mem_nil (hslow h)
        simp [hsub, hfast]
      · simp [hsub]
    rw [broadcastEncoded, streamsOf, streamsOf]
    split_ifs
    · rfl
    · rw [subscribersOf_retain]
      split_ifs
      · rw [hkept]
      · rfl
  · rw [← map_filter_snapshot]
    exact hqueue

theorem broadcastEncoded_sublist (handles : Handles) (stateKey : String)
    (version : ℕ) (ops : List DeltaOp) (excludeSession : Option String) (s : String) :
    (∀ k, ((bus.broadcastEncoded handles stateKey version ops excludeSession).1.streamsOf k
      s).Sublist (bus.streamsOf k s)) ∧ ∃ sent, sent.Sublist (if excludeSession = some s then []
        else (bus.streamsOf stateKey s).map fun sid => OutboundMsg.delta sid 0 version ops) ∧
      ((bus.broadcastEncoded handles stateKey version ops excludeSession).2 s).queue =
        (handles s).queue ++ sent := by
  constructor
  · intro k
    rw [broadcastEncoded, streamsOf, streamsOf]
    refine List.Sublist.map _ (List.Sublist.filter _ ?_)
    split_ifs
    · exact List.Sublist.refl _
    · rw [subscribersOf_retain]
      split_ifs
      · exact filter_sublist
      · exact List.Sublist.refl _
  · rw [← map_filter_snapshot]
    exact foldl_sendDelta_sublist _ (handles, [])

theorem broadcastEncoded_cancelled {bus : FanoutBus} {s : String}
    (hc : (handles s).cancelled = true) (stateKey : String) (version : ℕ) (ops : List DeltaOp)
    (excludeSession : Option String) :
    ((bus.broadcastEncoded handles stateKey version ops excludeSession).2 s).cancelled = true :=
  foldl_sendDelta_cancelled hc

end FanoutBus

end Sodp
