import Sodp.ConnectionTasks

/-!
# The order of deltas in a queue

The version of a delta is fixed when the store is written, its place in the queues
when it is published. If every task publishes before any other one that holds a
newer delta of the same key, and no session holds two streams of a key, then each
queue has the deltas of a key in increasing version order.
-/

namespace Sodp.Tasks
open Transition List Option StateStore

variable {ι : Type*}

def deltaVersion (session : Session) (stateKey : String) : OutboundMsg → Option ℕ
  | .delta streamId _ version _ =>
    if (session.watches.get? streamId).any fun e => e.stateKey = stateKey then some version
    else none
  | _ => none

def deltaVersions (c : Tasks ι) (i : ι) (stateKey : String) : List ℕ :=
  (c.queue i).filterMap (deltaVersion (c.session i) stateKey)

/-- Before the run: no task is in a handler, the queues are empty, and each session
hears of a key on at most one stream, the one of its watch table. -/
structure AtRest (c : Tasks ι) : Prop where
  idle : ∀ i, c.handler i = .idle
  ids : ∀ i j, (c.session i).id = (c.session j).id → i = j
  streams : ∀ i k, (c.server.fanout.streamsOf k (c.session i).id).Sublist
    ((c.session i).watchStreamId k).toList
  empty : ∀ i, c.queue i = []

structure Ordered (c : Tasks ι) : Prop where
  mutating : ∀ i, c.handler i = .idle ∨
    ∃ source k v ops, c.handler i = .publishing source k v ops
  ids : ∀ i j, (c.session i).id = (c.session j).id → i = j
  streams : ∀ i k, (c.server.fanout.streamsOf k (c.session i).id).Sublist
    ((c.session i).watchStreamId k).toList
  increasing : ∀ i k, (c.deltaVersions i k).Pairwise (· < ·)
  issued : ∀ i k, ∀ w ∈ c.deltaVersions i k, w ≤ c.server.state.globalVersion
  waiting : ∀ j source k v ops, c.handler j = .publishing source k v ops →
    v ≤ c.server.state.globalVersion ∧ ∀ i, ∀ w ∈ c.deltaVersions i k, w < v

variable {c c' : Tasks ι} {k : String}

theorem AtRest.ordered (h : AtRest c) : Ordered c where
  mutating i := .inl (h.idle i)
  ids := h.ids
  streams := h.streams
  increasing i k := by rw [deltaVersions, h.empty i]; exact List.Pairwise.nil
  issued i k w hw := by rw [deltaVersions, h.empty i] at hw; cases hw
  waiting j source k v ops hj := by rw [h.idle j] at hj; cases hj

variable {session : Session}

theorem deltaVersion_delta {j : String} {streamId : ℕ}
    (h : session.Watches streamId k) (seq version : ℕ) (ops : List DeltaOp) :
    deltaVersion session j (.delta streamId seq version ops) =
      if k = j then some version else none := by
  obtain ⟨_, hentry, rfl⟩ := h
  rw [deltaVersion, hentry, any_some]
  simp

variable {ops : List DeltaOp}

theorem versions_sent {j : String} {version : ℕ} {sent : List OutboundMsg}
    (h : sent.Sublist ((session.watchStreamId k).toList.map fun sid => .delta sid 0 version ops)) :
    (sent.filterMap (deltaVersion session j)).Sublist (if k = j then [version] else []) := by
  refine (h.filterMap _).trans ?_
  cases hid : session.watchStreamId k with
  | none => exact nil_sublist _
  | some =>
    have hw := Session.watches_of_watchStreamId hid
    rw [toList_some, map_singleton, filterMap_cons, filterMap_nil, deltaVersion_delta hw]
    split_ifs <;> exact List.Sublist.refl _

theorem Ordered.deliver (h : Ordered c) (source : Source) (p i : ι) (k : String) (version : ℕ)
    (ops : List DeltaOp) :
    (∀ j, ((c.server.deliver source (c.session p) k version ops).fanout.streamsOf j
      (c.session i).id).Sublist (c.server.fanout.streamsOf j (c.session i).id)) ∧
    ∃ sent, sent.Sublist
        (((c.session i).watchStreamId k).toList.map fun sid => .delta sid 0 version ops) ∧
      ((c.server.deliver source (c.session p) k version ops).handles (c.session i).id).queue =
        c.queue i ++ sent := by
  cases source with
  | call =>
    obtain ⟨hstreams, sent, hsub, hqueue⟩ :=
      c.server.publish_sublist (c.session p) k version ops (c.session i).id
    refine ⟨hstreams, sent, hsub.trans ?_, hqueue⟩
    rw [SodpServer.reached]
    split_ifs with hid
    · rw [h.ids i p hid]
    · exact (h.streams i k).map _
  | cleanup =>
    obtain ⟨hstreams, sent, hsub, hqueue⟩ :=
      c.server.broadcast_sublist k version ops none (c.session i).id
    refine ⟨hstreams, sent, hsub.trans ?_, hqueue⟩
    rw [if_neg (by simp)]
    exact (h.streams i k).map _

variable [DecidableEq ι]

theorem Ordered.mutate {i : ι} {source : Source} {call : StateStore.Call} (h : Ordered c)
    (hstep : step c (i, .mutate source call) = some c') : Ordered c' := by
  obtain ⟨-, handler, rfl, hhandler⟩ := step_mutate hstep
  have hsession := moved_same_session c i
    { c.server with state := (c.server.state.exec call).1 } handler
  have hversions : ∀ j k, (c.moved i ({ c.server with state := (c.server.state.exec call).1 },
      c.session i) handler).deltaVersions j k = c.deltaVersions j k := by
    intro j k
    rw [deltaVersions, queue, hsession]
    rfl
  have hgrows := globalVersion_le_exec c.server.state call
  constructor
  · intro j
    by_cases hj : j = i
    · subst hj
      rw [moved_handler_self]
      rcases hhandler with ⟨hidle, -⟩ | ⟨version, ops, -, hpub⟩
      · exact .inl hidle
      · exact .inr ⟨_, _, _, _, hpub⟩
    · rw [moved_handler_of_ne c hj]
      exact h.mutating j
  · rw [hsession]
    exact h.ids
  · rw [hsession]
    exact h.streams
  · intro j k
    rw [hversions]
    exact h.increasing j k
  · intro j k w hw
    rw [hversions] at hw
    exact (h.issued j k w hw).trans hgrows
  · intro j src k v ops hj
    simp only [hversions]
    by_cases hji : j = i
    · subst hji
      rw [moved_handler_self] at hj
      rcases hhandler with ⟨hidle, -⟩ | ⟨version, _, hresult, hpub⟩
      · rw [hidle] at hj
        cases hj
      · rw [hpub, Handler.publishing.injEq] at hj
        have hv : v = c.server.state.globalVersion + 1 := by
          rw [← hj.2.2.1]
          exact version_exec hresult
        refine ⟨?_, fun l w hw => ?_⟩
        · change v ≤ (c.server.state.exec call).1.globalVersion
          rw [globalVersion_exec, hresult, map_some, getD_some, ← hj.2.2.1]
        · have hle := h.issued l k w hw
          omega
    · rw [moved_handler_of_ne c hji] at hj
      obtain ⟨hle, hlt⟩ := h.waiting j src k v ops hj
      exact ⟨hle.trans hgrows, hlt⟩

section Delivery
variable {c : Tasks ι} {source : Source} {i j : ι} {k l : String} {version : ℕ} {ops : List DeltaOp}

theorem Ordered.deltaVersions_deliver (h : Ordered c) :
    ∃ sent, sent.Sublist (if k = l then [version] else []) ∧
      (c.moved i (c.server.deliver source (c.session i) k version ops, c.session i)
        .idle).deltaVersions j l = c.deltaVersions j l ++ sent := by
  obtain ⟨-, sent, hsub, hqueue⟩ := h.deliver source i j k version ops
  refine ⟨sent.filterMap (deltaVersion (c.session j) l), versions_sent hsub, ?_⟩
  rw [deltaVersions, queue, moved_same_session, deltaVersions, ← filterMap_append, ← hqueue]
  rfl

theorem Ordered.mem_deltaVersions_deliver (h : Ordered c) {w : ℕ}
    (hw : w ∈ (c.moved i (c.server.deliver source (c.session i) k version ops, c.session i)
      .idle).deltaVersions j l) : w ∈ c.deltaVersions j l ∨ (k = l ∧ w = version) := by
  obtain ⟨_, hsub, heq⟩ := h.deltaVersions_deliver (c := c) (i := i) (j := j) (k := k) (l := l)
  rw [heq, mem_append] at hw
  rcases hw with hw | hw
  · exact .inl hw
  · have hmem := hsub.subset hw
    split_ifs at hmem with hk
    · exact .inr ⟨hk, mem_singleton.mp hmem⟩
    · cases hmem

theorem Ordered.increasing_deliver (h : Ordered c)
    (hbelow : ∀ w ∈ c.deltaVersions j k, w < version) :
    ((c.moved i (c.server.deliver source (c.session i) k version ops, c.session i)
      .idle).deltaVersions j l).Pairwise (· < ·) := by
  obtain ⟨_, hsub, heq⟩ := h.deltaVersions_deliver (c := c) (i := i) (j := j) (k := k) (l := l)
  rw [heq, pairwise_append]
  refine ⟨h.increasing j l, ?_, fun a ha b hb => ?_⟩
  · refine List.Pairwise.sublist hsub ?_
    split_ifs
    · exact pairwise_singleton _ _
    · exact List.Pairwise.nil
  · have hmem := hsub.subset hb
    split_ifs at hmem with hk
    · subst hk
      rw [mem_singleton.mp hmem]
      exact hbelow a ha
    · cases hmem

end Delivery

theorem Ordered.publish {i : ι} {action : Action} {source : Source} {version : ℕ} (h : Ordered c)
    (hi : c.handler i = .publishing source k version ops)
    (hturn : Turn c (i, action)) (hstep : step c (i, action) = some c') : Ordered c' := by
  obtain ⟨-, rfl⟩ := step_publish hi hstep
  have hsession := moved_same_session c i
    (c.server.deliver source (c.session i) k version ops) .idle
  have hstate := c.server.state_deliver source (c.session i) k version ops
  obtain ⟨hissued, hbelow⟩ := h.waiting i source k version ops hi
  constructor
  · intro j
    by_cases hj : j = i
    · subst hj
      exact .inl (moved_handler_self ..)
    · rw [moved_handler_of_ne c hj]
      exact h.mutating j
  · rw [hsession]
    exact h.ids
  · intro j l
    rw [hsession]
    exact ((h.deliver source i j k version ops).1 l).trans (h.streams j l)
  · exact fun j l => h.increasing_deliver (hbelow j)
  · intro j l w hw
    change w ≤ (c.server.deliver source (c.session i) k version ops).state.globalVersion
    rw [hstate]
    rcases h.mem_deltaVersions_deliver hw with hw | ⟨-, rfl⟩
    · exact h.issued j l w hw
    · exact hissued
  · intro j src l v ops' hj
    by_cases hji : j = i
    · subst hji
      rw [moved_handler_self] at hj
      cases hj
    · rw [moved_handler_of_ne c hji] at hj
      obtain ⟨hle, hlt⟩ := h.waiting j src l v ops' hj
      change v ≤ (c.server.deliver source (c.session i) k version ops).state.globalVersion ∧ _
      rw [hstate]
      refine ⟨hle, fun m w hw => ?_⟩
      rcases h.mem_deltaVersions_deliver hw with hw | ⟨rfl, rfl⟩
      · exact hlt m w hw
      · exact hturn (k, w) (by rw [hi]; rfl) j hji (k, v) (by rw [hj]; rfl) rfl

theorem Ordered.step {e : ι × Action} (h : Ordered c) (hmutation : e.2.isMutation = true)
    (hturn : Turn c e) (hstep : step c e = some c') : Ordered c' := by
  obtain ⟨i, action⟩ := e
  rcases h.mutating i with hidle | ⟨_, k, v, _, hpub⟩
  · cases action with
    | mutate => exact h.mutate hstep
    | proceed => simp [Tasks.step, hidle] at hstep
    | _ => cases hmutation
  · exact h.publish hpub hturn hstep

theorem deltas_in_order {initial c : Tasks ι} {events : List (ι × Action)} (hstart : AtRest initial)
    (hrun : run Tasks.step initial events = some c)
    (hturns : Transition.Along Tasks.step
      (fun c e => e.2.isMutation = true ∧ Turn c e) initial events)
    (i : ι) (stateKey : String) : (c.deltaVersions i stateKey).Pairwise (· < ·) := by
  have h : Ordered c :=
    invariant_along (fun _ _ _ h hok hs => h.step hok.1 hok.2 hs) hstart.ordered hturns hrun
  exact h.increasing i stateKey

def twoCallers : Tasks (Fin 3) :=
  let opened := SodpServer.new.openStream (.new "c" 0 none none) "k" none
  ⟨opened.1, fun i => if i = 0 then .new "a" 0 none none else
    if i = 1 then .new "b" 0 none none else opened.2, fun _ => .idle⟩

theorem twoCallers_atRest : AtRest twoCallers where
  idle _ := rfl
  ids := by decide
  streams i k := by
    have hsubs : twoCallers.server.fanout.subscribersOf k =
        if k = "k" then [⟨"c", 10⟩] else [] := by
      change (FanoutBus.new.subscribe "k" ⟨"c", 10⟩).subscribersOf k = _
      rw [FanoutBus.subscribersOf_subscribe, FanoutBus.subscribersOf_new]
      rfl
    rw [FanoutBus.streamsOf, hsubs]
    split_ifs with hk
    · subst hk
      revert i
      decide
    · exact nil_sublist _
  empty i := by
    revert i
    decide

theorem deltas_in_order_two : ∃ c, run Tasks.step twoCallers
        [(0, .mutate .call (.apply "k" (.bool true))),
          (1, .mutate .call (.apply "k" (.bool false))),
          (0, .proceed), (1, .proceed)] = some c ∧
      c.deltaVersions 2 "k" = [1, 2] ∧ (c.deltaVersions 2 "k").Pairwise (· < ·) := by
  refine exists_run (fun c => c.deltaVersions 2 "k" = [1, 2]) (by decide +kernel)
    fun c hc hversions => ⟨hversions, ?_⟩
  exact deltas_in_order twoCallers_atRest hc (by decide +kernel) 2 "k"

/-- The second caller publishes first, and the watcher hears of version 2 before version 1. -/
theorem deltas_overtaken : AtRest twoCallers ∧ ∃ c, run Tasks.step twoCallers
        [(0, .mutate .call (.apply "k" (.bool true))),
          (1, .mutate .call (.apply "k" (.bool false))),
          (1, .proceed), (0, .proceed)] = some c ∧ c.deltaVersions 2 "k" = [2, 1] := by
  exact ⟨twoCallers_atRest, by decide +kernel⟩

end Sodp.Tasks
