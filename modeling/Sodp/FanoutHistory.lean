import Mathlib.Data.List.Nodup
import Sodp.Fanout

/-!
# No gap without eviction

An observer keeps all that ever entered the queue of each session. A stream that is still registered
has got every delta of its key since it was subscribed, unless its session was excluded or has been
cancelled. The callers take the stream id of every subscription from a counter of the session.
-/

namespace Sodp
open List

def OutboundMsg.bodyFor (streamId : ℕ) : OutboundMsg → Option (ℕ × List DeltaOp)
  | .delta sid _ version ops => if sid = streamId then some (version, ops) else none
  | _ => none

namespace FanoutBus

inductive Step where
  | subscribe (stateKey : String) (sub : Subscriber)
  | unsubscribe (stateKey sessionId : String)
  | removeSession (sessionId : String)
  | broadcast (stateKey : String) (version : ℕ) (ops : List DeltaOp)
      (excludeSession : Option String)
  | drain (sessionId : String)

namespace Step

def subscriber? : Step → Option Subscriber
  | .subscribe _ sub => some sub
  | _ => none

def dueTo (k s : String) : Step → Option (ℕ × List DeltaOp)
  | .broadcast stateKey version ops excludeSession =>
    if stateKey = k ∧ excludeSession ≠ some s then some (version, ops) else none
  | _ => none

end Step

structure Traffic where
  bus : FanoutBus
  handles : Handles
  sent : String → List OutboundMsg

namespace Traffic

def start (handles : Handles) : Traffic := ⟨.new, handles, fun _ => []⟩

def step (t : Traffic) : Step → Traffic
  | .subscribe stateKey sub => { t with bus := t.bus.subscribe stateKey sub }
  | .unsubscribe stateKey sessionId => { t with bus := t.bus.unsubscribe stateKey sessionId }
  | .removeSession sessionId => { t with bus := t.bus.removeSession sessionId }
  | .broadcast stateKey version ops excludeSession =>
    let after := t.bus.broadcastEncoded t.handles stateKey version ops excludeSession
    ⟨after.1, after.2, fun s => t.sent s ++ (after.2 s).queue.drop (t.handles s).queue.length⟩
  | .drain sessionId =>
    let handle := t.handles sessionId
    { t with handles :=
        Function.update t.handles sessionId { handle with queue := handle.queue.tail } }

def run (handles : Handles) (steps : List Step) : Traffic := steps.foldl step (start handles)

def bodies (t : Traffic) (s : String) (n : ℕ) : List (ℕ × List DeltaOp) :=
  (t.sent s).filterMap (OutboundMsg.bodyFor n)

theorem run_append (handles : Handles) (steps more : List Step) :
    run handles (steps ++ more) = more.foldl step (run handles steps) := foldl_append ..

/-! ### One broadcast -/

section Broadcast
variable {t : Traffic} {stateKey : String} {version : ℕ} {ops : List DeltaOp}
  {excludeSession : Option String} {s : String} {n : ℕ}

theorem filterMap_bodyFor (streams : List ℕ) (n version : ℕ) (ops : List DeltaOp) :
    (streams.map fun sid => OutboundMsg.delta sid 0 version ops).filterMap (OutboundMsg.bodyFor n) =
      List.replicate (streams.count n) (version, ops) := by
  induction streams with
  | nil => rfl
  | cons sid streams ih =>
    rw [map_cons, filterMap_cons, ih, count_cons]
    by_cases hn : sid = n
    · simp [OutboundMsg.bodyFor, hn, replicate_succ]
    · simp [OutboundMsg.bodyFor, hn]

theorem bodies_broadcast_of_open
    (hopen : ((t.step (.broadcast stateKey version ops excludeSession)).handles s).cancelled =
      false) (n : ℕ) :
    (t.step (.broadcast stateKey version ops excludeSession)).bodies s n = t.bodies s n ++
      if excludeSession = some s then []
      else List.replicate ((t.bus.streamsOf stateKey s).count n) (version, ops) := by
  have hqueue := congrArg WriteHandle.queue (broadcastEncoded_of_open hopen).2
  rw [bodies, step, filterMap_append, bodies]
  rw [hqueue, WriteHandle.queue_push, drop_left]
  split_ifs
  · rfl
  · rw [filterMap_bodyFor]

theorem bodies_broadcast_of_not_mem (hn : n ∉ t.bus.streamsOf stateKey s) :
    (t.step (.broadcast stateKey version ops excludeSession)).bodies s n = t.bodies s n := by
  obtain ⟨-, _, hsub, hqueue⟩ :=
    t.bus.broadcastEncoded_sublist t.handles stateKey version ops excludeSession s
  rw [bodies, step, filterMap_append, bodies]
  rw [hqueue, drop_left, append_right_eq_self, filterMap_eq_nil_iff]
  intro msg hmsg
  have hmem := hsub.subset hmsg
  split_ifs at hmem
  · cases hmem
  · obtain ⟨sid, hsid, rfl⟩ := mem_map.mp hmem
    rw [OutboundMsg.bodyFor, if_neg fun h : sid = n => hn (h ▸ hsid)]

end Broadcast

variable {t : Traffic} {s : String}

theorem step_cancelled (hc : (t.handles s).cancelled = true)
    (e : Step) : ((t.step e).handles s).cancelled = true := by
  cases e with
  | subscribe | unsubscribe | removeSession => exact hc
  | broadcast => exact broadcastEncoded_cancelled hc _ _ _ _
  | drain sessionId =>
    rw [step]
    by_cases hs : s = sessionId
    · subst hs
      simpa using hc
    · simpa [hs] using hc

theorem foldl_step_cancelled (hc : (t.handles s).cancelled = true)
    (steps : List Step) : ((steps.foldl step t).handles s).cancelled = true := by
  induction steps generalizing t with
  | nil => exact hc
  | cons e steps ih => exact ih (step_cancelled hc e)

theorem open_of_step {e : Step}
    (hopen : ((t.step e).handles s).cancelled = false) : (t.handles s).cancelled = false := by
  by_contra hc
  rw [step_cancelled (by simpa using hc)] at hopen
  cases hopen

/-! ### Whole runs -/

def FreshStreams (steps : List Step) : Prop := (steps.filterMap Step.subscriber?).Nodup

variable {steps : List Step}

theorem FreshStreams.key_unique (h : FreshStreams steps) {k j : String}
    {sub : Subscriber} (hk : Step.subscribe k sub ∈ steps) (hj : Step.subscribe j sub ∈ steps) :
    k = j := by
  induction steps with
  | nil => cases hk
  | cons e steps ih =>
    have hmem : ∀ {i}, Step.subscribe i sub ∈ steps →
        sub ∈ steps.filterMap Step.subscriber? := fun hi =>
      mem_filterMap.mpr ⟨_, hi, rfl⟩
    have hrest : FreshStreams steps := by
      rw [FreshStreams, filterMap_cons] at h
      split at h
      · exact h
      · exact h.of_cons
    rcases mem_cons.mp hk with rfl | hk' <;> rcases mem_cons.mp hj with hj' | hj'
    · exact (Step.subscribe.inj hj').1.symm
    · exact absurd (hmem hj') (nodup_cons.mp h).1
    · subst hj'
      exact absurd (hmem hk') (nodup_cons.mp h).1
    · exact ih hrest hk' hj'

structure Delivered (steps : List Step) (t : Traffic) : Prop where
  origin : ∀ k s n, n ∈ t.bus.streamsOf k s → Step.subscribe k ⟨s, n⟩ ∈ steps
  nodup : ∀ k s, (t.bus.streamsOf k s).Nodup
  silent : ∀ s n, (∀ k, Step.subscribe k ⟨s, n⟩ ∉ steps) → t.bodies s n = []
  delivered : ∀ k s n, n ∈ t.bus.streamsOf k s → (t.handles s).cancelled = false →
    ∃ before after, steps = before ++ .subscribe k ⟨s, n⟩ :: after ∧
      t.bodies s n = after.filterMap (Step.dueTo k s)

theorem delivered_start (handles : Handles) : Delivered [] (start handles) := by
  have hempty : ∀ k s, (start handles).bus.streamsOf k s = [] := by
    intro k s
    rw [start, streamsOf, subscribersOf_new]
    rfl
  refine ⟨fun k s n hn => ?_, fun k s => ?_, fun _ _ _ => rfl, fun k s n hn => ?_⟩
  · rw [hempty] at hn
    cases hn
  · rw [hempty]
    exact nodup_nil
  · rw [hempty] at hn
    cases hn

section Step
variable {steps : List Step} {t : Traffic} {e : Step}

section
variable (h : Delivered steps t)
include h

theorem Delivered.quiet (hdue : ∀ k s, e.dueTo k s = none) (hsent : (t.step e).sent = t.sent)
    (hstreams : ∀ k s, ((t.step e).bus.streamsOf k s).Sublist (t.bus.streamsOf k s)) :
    Delivered (steps ++ [e]) (t.step e) := by
  have hbodies : ∀ s n, (t.step e).bodies s n = t.bodies s n := fun s n => by
    rw [bodies, hsent, bodies]
  refine ⟨fun k s n hn => ?_, fun k s => (h.nodup k s).sublist (hstreams k s), fun s n hn => ?_,
    fun k s n hn hopen => ?_⟩
  · exact mem_append_left _ (h.origin k s n ((hstreams k s).subset hn))
  · rw [hbodies]
    exact h.silent s n fun k hk => hn k (mem_append_left _ hk)
  · obtain ⟨before, after, rfl, hafter⟩ :=
      h.delivered k s n ((hstreams k s).subset hn) (open_of_step hopen)
    refine ⟨before, after ++ [e], by simp, ?_⟩
    rw [hbodies, hafter, filterMap_append, filterMap_cons, hdue]
    exact (append_nil _).symm

theorem Delivered.subscribe {stateKey : String} {sub : Subscriber}
    (hfresh : FreshStreams (steps ++ [.subscribe stateKey sub])) :
    Delivered (steps ++ [.subscribe stateKey sub]) (t.step (.subscribe stateKey sub)) := by
  have hunused : ∀ k, Step.subscribe k sub ∉ steps := by
    intro k hk
    rw [FreshStreams, filterMap_append, nodup_append'] at hfresh
    refine hfresh.2.2 (mem_filterMap.mpr ⟨_, hk, rfl⟩) ?_
    exact mem_filterMap.mpr ⟨_, mem_singleton_self _, rfl⟩
  have hstreams : ∀ k s, (t.step (.subscribe stateKey sub)).bus.streamsOf k s =
      t.bus.streamsOf k s ++ if k = stateKey ∧ s = sub.sessionId then [sub.streamId] else [] :=
    fun k s => t.bus.streamsOf_subscribe stateKey k s sub
  refine ⟨fun k s n hn => ?_, fun k s => ?_, fun s n hn => ?_, fun k s n hn hopen => ?_⟩
  · rw [hstreams, mem_append] at hn
    rcases hn with hn | hn
    · exact mem_append_left _ (h.origin k s n hn)
    · split_ifs at hn with hnew
      · obtain ⟨rfl, rfl⟩ := hnew
        rw [mem_singleton.mp hn]
        exact mem_append_right _ (mem_singleton_self _)
      · cases hn
  · rw [hstreams]
    split_ifs with hnew
    · obtain ⟨rfl, rfl⟩ := hnew
      refine (h.nodup _ _).append (nodup_singleton _) fun n hn hsub => ?_
      rw [mem_singleton.mp hsub] at hn
      exact hunused _ (h.origin _ _ _ hn)
    · rw [append_nil]
      exact h.nodup k s
  · exact h.silent s n fun k hk => hn k (mem_append_left _ hk)
  · rw [hstreams, mem_append] at hn
    rcases hn with hn | hn
    · obtain ⟨before, after, rfl, hafter⟩ := h.delivered k s n hn hopen
      refine ⟨before, after ++ [.subscribe stateKey sub], by simp, ?_⟩
      rw [filterMap_append]
      exact hafter.trans (append_nil _).symm
    · split_ifs at hn with hnew
      · obtain ⟨rfl, rfl⟩ := hnew
        rw [mem_singleton.mp hn]
        exact ⟨steps, [], rfl, h.silent _ _ hunused⟩
      · cases hn

theorem Delivered.broadcast (hfresh : FreshStreams steps)
    (stateKey : String) (version : ℕ) (ops : List DeltaOp) (excludeSession : Option String) :
    Delivered (steps ++ [.broadcast stateKey version ops excludeSession])
      (t.step (.broadcast stateKey version ops excludeSession)) := by
  have hstreams : ∀ k s, ((t.step (.broadcast stateKey version ops excludeSession)).bus.streamsOf
      k s).Sublist (t.bus.streamsOf k s) := fun k s =>
    (t.bus.broadcastEncoded_sublist t.handles stateKey version ops excludeSession s).1 k
  refine ⟨fun k s n hn => ?_, fun k s => (h.nodup k s).sublist (hstreams k s), fun s n hn => ?_,
    fun k s n hn hopen => ?_⟩
  · exact mem_append_left _ (h.origin k s n ((hstreams k s).subset hn))
  · have hunused : ∀ k, Step.subscribe k ⟨s, n⟩ ∉ steps := fun k hk =>
      hn k (mem_append_left _ hk)
    rw [bodies_broadcast_of_not_mem fun hmem => hunused _ (h.origin _ s n hmem)]
    exact h.silent s n hunused
  · replace hn := (hstreams k s).subset hn
    obtain ⟨before, after, hsteps, hafter⟩ := h.delivered k s n hn (open_of_step hopen)
    refine ⟨before, after ++ [.broadcast stateKey version ops excludeSession], by simp [hsteps], ?_⟩
    rw [filterMap_append, ← hafter]
    by_cases hk : stateKey = k
    · subst hk
      rw [bodies_broadcast_of_open hopen, count_eq_one_of_mem (h.nodup _ s) hn]
      by_cases hs : excludeSession = some s <;> simp [Step.dueTo, hs]
    · have hother : n ∉ t.bus.streamsOf stateKey s := fun hmem =>
        hk (hfresh.key_unique (h.origin _ s n hmem) (h.origin k s n hn))
      rw [bodies_broadcast_of_not_mem hother]
      simp [Step.dueTo, hk]

theorem Delivered.step (hfresh : FreshStreams (steps ++ [e])) :
    Delivered (steps ++ [e]) (t.step e) := by
  cases e with
  | subscribe => exact h.subscribe hfresh
  | unsubscribe =>
    refine h.quiet (fun _ _ => rfl) rfl fun k s => ?_
    rw [Traffic.step, streamsOf_unsubscribe]
    split_ifs
    · exact nil_sublist _
    · exact List.Sublist.refl _
  | removeSession =>
    refine h.quiet (fun _ _ => rfl) rfl fun k s => ?_
    rw [Traffic.step, streamsOf_removeSession]
    split_ifs
    · exact nil_sublist _
    · exact List.Sublist.refl _
  | broadcast stateKey version ops excludeSession =>
    refine h.broadcast ?_ stateKey version ops excludeSession
    rw [FreshStreams, filterMap_append] at hfresh
    exact hfresh.of_append_left
  | drain => exact h.quiet (fun _ _ => rfl) rfl fun k s => List.Sublist.refl _

end

end Step

theorem delivered_run (handles : Handles) (hfresh : FreshStreams steps) :
    Delivered steps (run handles steps) := by
  induction steps using List.reverseRecOn with
  | nil => exact delivered_start handles
  | append_singleton steps e ih =>
    have hbefore : FreshStreams steps := by
      rw [FreshStreams, filterMap_append] at hfresh
      exact hfresh.of_append_left
    rw [run_append]
    exact (ih hbefore).step hfresh

/-- A stream that is still registered for a key, of a session that is not cancelled, has
got every delta of the key since it was subscribed, but those that excluded the session.
A registered stream that misses a delta not excluding it has its session cancelled. -/
theorem no_gap_without_eviction (handles : Handles) {steps : List Step}
    (hfresh : FreshStreams steps) : (∀ k s n, ⟨s, n⟩ ∈ (run handles steps).bus.subscribersOf k →
      ((run handles steps).handles s).cancelled = false →
      ∃ before after, steps = before ++ .subscribe k ⟨s, n⟩ :: after ∧
        (run handles steps).bodies s n = after.filterMap (Step.dueTo k s)) ∧
    ∀ before k version ops excludeSession after s n,
      steps = before ++ .broadcast k version ops excludeSession :: after →
      ⟨s, n⟩ ∈ (run handles before).bus.subscribersOf k → excludeSession ≠ some s →
      (run handles (before ++ [.broadcast k version ops excludeSession])).bodies s n ≠
        (run handles before).bodies s n ++ [(version, ops)] →
      ((run handles steps).handles s).cancelled = true := by
  refine ⟨fun k s n hn hopen => ?_, ?_⟩
  · exact (delivered_run handles hfresh).delivered k s n ((mem_streamsOf ..).mpr hn) hopen
  · rintro before k version ops excludeSession after s n rfl hn hs hmissed
    have hbefore : FreshStreams before := by
      rw [FreshStreams, filterMap_append] at hfresh
      exact hfresh.of_append_left
    by_contra hopen
    refine hmissed ?_
    have hlater : ((run handles (before ++ [.broadcast k version ops excludeSession])).handles
        s).cancelled = false := by
      by_contra hc
      refine hopen ?_
      rw [append_cons, run_append]
      exact foldl_step_cancelled (by simpa using hc) after
    rw [run_append] at hlater ⊢
    refine (bodies_broadcast_of_open hlater n).trans ?_
    rw [if_neg hs, count_eq_one_of_mem ((delivered_run handles hbefore).nodup k s)
      ((mem_streamsOf ..).mpr hn)]
    rfl

def oneOrFour (s : String) : WriteHandle := ⟨[], if s = "a" then 1 else 4, false⟩

def twoSubscribers : List Step :=
  [.subscribe "k" ⟨"a", 10⟩, .subscribe "k" ⟨"b", 10⟩, .subscribe "j" ⟨"b", 11⟩,
    .broadcast "k" 1 [] none, .broadcast "k" 2 [] none, .drain "b", .broadcast "j" 3 [] none,
    .broadcast "k" 4 [] (some "b")]

theorem no_gap_without_eviction_two :
    ((run oneOrFour twoSubscribers).handles "a").cancelled = true ∧
    ((run oneOrFour twoSubscribers).handles "b").cancelled = false ∧
    (run oneOrFour twoSubscribers).bodies "b" 10 = [(1, []), (2, [])] ∧
    ∃ before after, twoSubscribers = before ++ .subscribe "k" ⟨"b", 10⟩ :: after ∧
      (run oneOrFour twoSubscribers).bodies "b" 10 = after.filterMap (Step.dueTo "k" "b") := by
  have hfresh : FreshStreams twoSubscribers := by
    unfold FreshStreams
    decide +kernel
  obtain ⟨hdelivered, hmissed⟩ := no_gap_without_eviction oneOrFour hfresh
  refine ⟨?_, by decide +kernel, by decide +kernel, ?_⟩
  · exact hmissed (twoSubscribers.take 4) "k" 2 [] none (twoSubscribers.drop 5) "a" 10 rfl
      (by decide +kernel) (by decide) (by decide +kernel)
  · exact hdelivered "k" "b" 10 (by decide +kernel) (by decide +kernel)

def oneStreamTwice : List Step :=
  [.subscribe "k" ⟨"b", 10⟩, .subscribe "k" ⟨"b", 10⟩, .broadcast "k" 1 [] none]

/-- A stream that is registered twice gets the body of the one broadcast twice. -/
theorem stream_registered_twice : ⟨"b", 10⟩ ∈ (run oneOrFour oneStreamTwice).bus.subscribersOf "k" ∧
    ((run oneOrFour oneStreamTwice).handles "b").cancelled = false ∧
    (run oneOrFour oneStreamTwice).bodies "b" 10 = [(1, []), (1, [])] ∧
    oneStreamTwice.filterMap (Step.dueTo "k" "b") = [(1, [])] := by
  decide +kernel

end Traffic

end FanoutBus

end Sodp
