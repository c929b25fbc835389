import Mathlib.Data.Fintype.Sum
import Sodp.StageCount
import Sodp.Transition

/-!
# The write pool of the Go server

`writepool.go`, with any number of sessions, senders and workers; each step is one atomic operation
on a channel, a flag or a mutex. Whoever sets `inPool` puts the session into the queue, and the
worker that takes it out clears the flag and looks at the messages again. If the queue is full,
`enqueue` clears the flag and returns, and nobody looks.
-/

namespace Sodp.GoServer
open Transition Function List Option

inductive PoolStage (σ μ : Type*) where
  | idle
  | stopped
  | called (sess : σ) (msg : μ)
  | entered (sess : σ)
  | won (sess : σ)
  | refused (sess : σ)
  | popped (sess : σ)
  | draining (sess : σ)
  | received (sess : σ)
  | drained (sess : σ)
  | unlocked (sess : σ)
  | cleared (sess : σ)
deriving DecidableEq

namespace PoolStage
variable {σ μ : Type*}

def session : PoolStage σ μ → Option σ
  | .idle | .stopped => none
  | .called s _ | .entered s | .won s | .refused s | .popped s | .draining s | .received s
  | .drained s | .unlocked s | .cleared s => some s

def held : PoolStage σ μ → Option σ
  | .won s | .refused s | .popped s | .draining s | .received s | .drained s | .unlocked s => some s
  | _ => none

def looked : PoolStage σ μ → Option σ
  | .entered s | .cleared s => some s
  | _ => none

/-- 1 for a goroutine that holds the mutex of `s`. -/
def locks [DecidableEq σ] (s : σ) : PoolStage σ μ → ℕ
  | .draining t | .received t | .drained t => if s = t then 1 else 0
  | _ => 0

theorem session_of_held {stage : PoolStage σ μ} {s : σ} (h : stage.held = some s) :
    stage.session = some s := by
  cases stage <;> first | exact h | cases h

theorem session_of_looked {stage : PoolStage σ μ} {s : σ} (h : stage.looked = some s) :
    stage.session = some s := by
  cases stage <;> first | exact h | cases h

end PoolStage

/-- The goroutines are those that send (`ι`) and the workers (`κ`). -/
structure WritePool (σ ι κ μ : Type*) where
  queue : List σ
  capacity : ℕ
  backpressure : ℕ
  send : σ → List μ
  inPool : σ → Bool
  writeMu : σ → Bool
  pinging : σ → Bool
  closed : Bool
  stage : ι ⊕ κ → PoolStage σ μ

inductive PoolEvent (σ ι κ μ : Type*) where
  | send (i : ι) (sess : σ) (msg : μ)
  | enqueue (i : ι) (sess : σ)
  | take (j : κ)
  | handOver (g : ι ⊕ κ) (j : κ)
  | next (g : ι ⊕ κ) (written : Bool)
  | ping (sess : σ)
  | pinged (sess : σ)
  | close
  | stop (j : κ)

namespace WritePool
variable {σ ι κ μ : Type*}

def start (capacity backpressure : ℕ) : WritePool σ ι κ μ where
  queue := []
  capacity := capacity
  backpressure := backpressure
  send := fun _ => []
  inPool := fun _ => false
  writeMu := fun _ => false
  pinging := fun _ => false
  closed := false
  stage := fun _ => .idle

section Step
variable [DecidableEq ι] [DecidableEq κ]

def move (pool : WritePool σ ι κ μ) (g : ι ⊕ κ) (next : PoolStage σ μ) : WritePool σ ι κ μ :=
  { pool with stage := update pool.stage g next }

variable [DecidableEq σ]

def setSend (pool : WritePool σ ι κ μ) (s : σ) (msgs : List μ) : WritePool σ ι κ μ :=
  { pool with send := update pool.send s msgs }

def setInPool (pool : WritePool σ ι κ μ) (s : σ) (flag : Bool) : WritePool σ ι κ μ :=
  { pool with inPool := update pool.inPool s flag }

def setWriteMu (pool : WritePool σ ι κ μ) (s : σ) (locked : Bool) : WritePool σ ι κ μ :=
  { pool with writeMu := update pool.writeMu s locked }

def advance (pool : WritePool σ ι κ μ) (g : ι ⊕ κ) (written : Bool) : Option (WritePool σ ι κ μ) :=
  match pool.stage g with
  | .idle | .stopped => none
  | .called s msg =>
    if (pool.send s).length < pool.backpressure then
      some ((pool.setSend s (pool.send s ++ [msg])).move g (.entered s))
    else some (pool.move g .idle)
  | .entered s =>
    -- the compare-and-swap
    if pool.inPool s then some (pool.move g .idle)
    else some ((pool.setInPool s true).move g (.won s))
  | .won s =>
    if pool.queue.length < pool.capacity then
      some ({ pool with queue := pool.queue ++ [s] }.move g .idle)
    else some (pool.move g (.refused s))
  | .refused s => some ((pool.setInPool s false).move g .idle)
  | .popped s =>
    if pool.writeMu s then none else some ((pool.setWriteMu s true).move g (.draining s))
  | .draining s =>
    match pool.send s with
    | [] => some (pool.move g (.drained s))
    | _ :: rest => some ((pool.setSend s rest).move g (.received s))
  | .received s => some (pool.move g (if written then .draining s else .drained s))
  | .drained s => some ((pool.setWriteMu s false).move g (.unlocked s))
  | .unlocked s => some ((pool.setInPool s false).move g (.cleared s))
  | .cleared s =>
    match pool.send s with
    | [] => some (pool.move g .idle)
    | _ :: _ => some (pool.move g (.entered s))

/-- A queue without a buffer hands a session over to a worker that waits for one. The pings of a
session take the mutex too. -/
def step (pool : WritePool σ ι κ μ) : PoolEvent σ ι κ μ → Option (WritePool σ ι κ μ)
  | .send i s msg =>
    match pool.stage (.inl i) with
    | .idle => some (pool.move (.inl i) (.called s msg))
    | _ => none
  | .enqueue i s =>
    match pool.stage (.inl i) with
    | .idle => some (pool.move (.inl i) (.entered s))
    | _ => none
  | .take j =>
    match pool.stage (.inr j), pool.queue with
    | .idle, s :: rest => some ({ pool with queue := rest }.move (.inr j) (.popped s))
    | _, _ => none
  | .handOver g j =>
    match pool.stage g, pool.stage (.inr j) with
    | .won s, .idle =>
      if pool.capacity = 0 then some ((pool.move (.inr j) (.popped s)).move g .idle) else none
    | _, _ => none
  | .next g written => pool.advance g written
  | .ping s =>
    if pool.writeMu s || pool.pinging s then none
    else some { pool.setWriteMu s true with pinging := update pool.pinging s true }
  | .pinged s =>
    if pool.pinging s then
      some { pool.setWriteMu s false with pinging := update pool.pinging s false }
    else none
  | .close => some { pool with closed := true }
  | .stop j =>
    match pool.stage (.inr j) with
    | .idle => if pool.closed then some (pool.move (.inr j) .stopped) else none
    | _ => none

end Step

/-- An `enqueue` that the queue has refused leaves no message behind that nobody looks at. -/
def Roomy (pool : WritePool σ ι κ μ) : PoolEvent σ ι κ μ → Prop
  | .next g _ => ∀ s, pool.stage g = .refused s →
    pool.send s = [] ∨ ∃ h, (pool.stage h).looked = some s
  | _ => True

structure Awake (pool : WritePool σ ι κ μ) (s : σ) : Prop where
  token : pool.inPool s = true → s ∈ pool.queue ∨ ∃ g, (pool.stage g).held = some s
  seen : pool.send s ≠ [] → pool.inPool s = true ∨ ∃ g, (pool.stage g).looked = some s

theorem awake_start (capacity backpressure : ℕ) (s : σ) :
    (start capacity backpressure : WritePool σ ι κ μ).Awake s :=
  ⟨nofun, fun h => absurd rfl h⟩

theorem Awake.mem_queue {pool : WritePool σ ι κ μ} {s : σ} (h : pool.Awake s)
    (hsend : pool.send s ≠ []) (hquiet : ∀ g, (pool.stage g).session ≠ some s) :
    s ∈ pool.queue := by
  rcases h.seen hsend with hin | ⟨g, hg⟩
  · rcases h.token hin with hmem | ⟨g, hg⟩
    · exact hmem
    · exact absurd (PoolStage.session_of_held hg) (hquiet g)
  · exact absurd (PoolStage.session_of_looked hg) (hquiet g)

section Moves
variable {pool pool' : WritePool σ ι κ μ} {g : ι ⊕ κ} {s t : σ} {stage next : PoolStage σ μ}

section Fields
variable [DecidableEq σ]

theorem inPool_setInPool_self (pool : WritePool σ ι κ μ) (s : σ) (flag : Bool) :
    (pool.setInPool s flag).inPool s = flag := by
  simp only [setInPool, update_self]

theorem inPool_setInPool_of_ne (pool : WritePool σ ι κ μ) (hts : t ≠ s) (flag : Bool) :
    (pool.setInPool s flag).inPool t = pool.inPool t := by
  simp only [setInPool, update_of_ne hts]

theorem send_setSend_of_ne (pool : WritePool σ ι κ μ) (hts : t ≠ s) (msgs : List μ) :
    (pool.setSend s msgs).send t = pool.send t := by
  simp only [setSend, update_of_ne hts]

end Fields

section Others
variable (h : pool.Awake t) (hg : pool.stage g = stage)
include h hg

theorem Awake.token_others (hheld : stage.held ≠ some t) (hin : pool.inPool t = true) :
    t ∈ pool.queue ∨ ∃ h, h ≠ g ∧ (pool.stage h).held = some t := by
  refine (h.token hin).imp_right ?_
  rintro ⟨k, hk⟩
  exact ⟨k, fun heq => hheld (by rwa [heq, hg] at hk), hk⟩

theorem Awake.seen_others (hlooked : stage.looked ≠ some t) (hsend : pool.send t ≠ []) :
    pool.inPool t = true ∨ ∃ h, h ≠ g ∧ (pool.stage h).looked = some t := by
  refine (h.seen hsend).imp_right ?_
  rintro ⟨k, hk⟩
  exact ⟨k, fun heq => hlooked (by rwa [heq, hg] at hk), hk⟩

end Others

variable [DecidableEq ι] [DecidableEq κ]

theorem stage_move_self (pool : WritePool σ ι κ μ) (g : ι ⊕ κ) (next : PoolStage σ μ) :
    (pool.move g next).stage g = next := by
  simp only [move, update_self]

theorem stage_move_of_ne (pool : WritePool σ ι κ μ) {g h : ι ⊕ κ} (hne : h ≠ g)
    (next : PoolStage σ μ) : (pool.move g next).stage h = pool.stage h := by
  simp only [move, update_of_ne hne]

theorem awake_move (htoken : pool.inPool t = true →
      t ∈ pool.queue ∨ next.held = some t ∨ ∃ h, h ≠ g ∧ (pool.stage h).held = some t)
    (hseen : pool.send t ≠ [] →
      pool.inPool t = true ∨ next.looked = some t ∨ ∃ h, h ≠ g ∧ (pool.stage h).looked = some t) :
    (pool.move g next).Awake t := by
  refine ⟨fun hin => ?_, fun hsend => ?_⟩
  · rcases htoken hin with hmem | hnext | ⟨h, hne, hheld⟩
    · exact .inl hmem
    · exact .inr ⟨g, by rw [stage_move_self, hnext]⟩
    · exact .inr ⟨h, by rw [stage_move_of_ne _ hne, hheld]⟩
  · rcases hseen hsend with hin | hnext | ⟨h, hne, hlooked⟩
    · exact .inl hin
    · exact .inr ⟨g, by rw [stage_move_self, hnext]⟩
    · exact .inr ⟨h, by rw [stage_move_of_ne _ hne, hlooked]⟩

section
variable (h : pool.Awake t)
include h

theorem Awake.apart (hg : pool.stage g = stage) (hheld : stage.held ≠ some t)
    (hlooked : stage.looked ≠ some t) (hstage : pool'.stage = pool.stage)
    (hin : pool'.inPool t = pool.inPool t) (hsend : pool'.send t ≠ [] → pool.send t ≠ [])
    (hqueue : t ∈ pool.queue → t ∈ pool'.queue) : (pool'.move g next).Awake t := by
  refine awake_move (fun hflag => ?_) fun hmsgs => ?_
  · rw [hin] at hflag
    rw [hstage]
    exact (h.token_others hg hheld hflag).imp hqueue Or.inr
  · rw [hin, hstage]
    exact (h.seen_others hg hlooked (hsend hmsgs)).imp_right Or.inr

theorem Awake.holding (hg : pool.stage g = stage) (hnext : next.held = some t)
    (hlooked : stage.looked ≠ some t) (hstage : pool'.stage = pool.stage)
    (hin : pool'.inPool t = pool.inPool t) (hsend : pool'.send t ≠ [] → pool.send t ≠ []) :
    (pool'.move g next).Awake t := by
  refine awake_move (fun _ => .inr (.inl hnext)) fun hmsgs => ?_
  rw [hin, hstage]
  exact (h.seen_others hg hlooked (hsend hmsgs)).imp_right Or.inr

theorem Awake.begin (hg : pool.stage g = .idle) (next : PoolStage σ μ) :
    (pool.move g next).Awake t :=
  h.apart hg nofun nofun rfl rfl id id

theorem Awake.taken {j : κ} (hj : pool.stage (.inr j) = .idle) {rest : List σ}
    (hqueue : pool.queue = s :: rest) :
    ({ pool with queue := rest }.move (.inr j) (.popped s)).Awake t := by
  refine awake_move (fun hin => ?_) fun hsend => ?_
  · rcases h.token_others hj nofun hin with hmem | hothers
    · rw [hqueue] at hmem
      rcases mem_cons.mp hmem with rfl | hmem
      · exact .inr (.inl rfl)
      · exact .inl hmem
    · exact .inr (.inr hothers)
  · exact (h.seen_others hj nofun hsend).imp_right Or.inr

theorem Awake.handedOver {j : κ} (hg : pool.stage g = .won s) (hj : pool.stage (.inr j) = .idle) :
    ((pool.move (.inr j) (.popped s)).move g .idle).Awake t := by
  have hne : g ≠ .inr j := by
    rintro rfl
    rw [hg] at hj
    cases hj
  have htaken : (pool.move (.inr j) (.popped s)).Awake t := h.begin hj _
  have hstage : (pool.move (.inr j) (.popped s)).stage g = .won s :=
    (stage_move_of_ne pool hne _).trans hg
  refine awake_move (fun hin => ?_) fun hsend => ?_
  · by_cases hts : s = t
    · refine .inr (.inr ⟨.inr j, hne.symm, ?_⟩)
      rw [stage_move_self, hts]
      rfl
    · exact (htaken.token_others hstage (fun heq => hts (some.inj heq)) hin).imp_right Or.inr
  · exact (htaken.seen_others hstage nofun hsend).imp_right Or.inr

end

variable [DecidableEq σ]

theorem Awake.of_session (h : ∀ t, pool.Awake t) (hg : pool.stage g = stage)
    (hs : stage.session = some s) (pool' : WritePool σ ι κ μ) (hstage : pool'.stage = pool.stage)
    (hother : ∀ t, t ≠ s → pool'.inPool t = pool.inPool t ∧ pool'.send t = pool.send t ∧
      (t ∈ pool.queue → t ∈ pool'.queue))
    (hself : (pool'.move g next).Awake s) (t : σ) : (pool'.move g next).Awake t := by
  by_cases hts : t = s
  · rw [hts]
    exact hself
  · obtain ⟨hin, hsend, hqueue⟩ := hother t hts
    have hne : stage.session ≠ some t := fun heq => hts (some.inj (heq.symm.trans hs))
    refine (h t).apart hg (fun hheld => hne (PoolStage.session_of_held hheld))
      (fun hlooked => hne (PoolStage.session_of_looked hlooked)) hstage hin ?_ hqueue
    rw [hsend]
    exact id

theorem Awake.advance (h : ∀ t, pool.Awake t) {written : Bool}
    (hok : ∀ s, pool.stage g = .refused s → pool.send s = [] ∨ ∃ h, (pool.stage h).looked = some s)
    (hstep : pool.advance g written = some pool') (t : σ) : pool'.Awake t := by
  rw [WritePool.advance] at hstep
  cases hg : pool.stage g <;> simp only [hg, reduceCtorEq] at hstep
  case called s _ =>
    have htoken := (h s).token_others hg nofun
    split_ifs at hstep
    · cases hstep
      refine Awake.of_session h hg rfl (pool.setSend s _) rfl
        (fun t hts => ⟨rfl, send_setSend_of_ne pool hts _, id⟩) ?_ t
      exact awake_move (fun hin => (htoken hin).imp_right .inr) fun _ => .inr (.inl rfl)
    · cases hstep
      refine Awake.of_session h hg rfl pool rfl (fun _ _ => ⟨rfl, rfl, id⟩) ?_ t
      exact (h s).apart hg nofun nofun rfl rfl id id
  case entered s =>
    have htoken := (h s).token_others hg nofun
    split_ifs at hstep with hin
    · cases hstep
      refine Awake.of_session h hg rfl pool rfl (fun _ _ => ⟨rfl, rfl, id⟩) ?_ t
      exact awake_move (fun hin => (htoken hin).imp_right .inr) fun _ => .inl hin
    · cases hstep
      refine Awake.of_session h hg rfl (pool.setInPool s _) rfl
        (fun t hts => ⟨inPool_setInPool_of_ne pool hts _, rfl, id⟩) ?_ t
      exact awake_move (fun _ => .inr (.inl rfl))
        fun _ => .inl (inPool_setInPool_self pool s true)
  case won s =>
    split_ifs at hstep
    · cases hstep
      refine Awake.of_session h hg rfl { pool with queue := pool.queue ++ [s] } rfl
        (fun _ _ => ⟨rfl, rfl, mem_append_left _⟩) ?_ t
      exact awake_move (fun _ => .inl (mem_append_right _ (mem_singleton_self s)))
        fun hsend => ((h s).seen_others hg nofun hsend).imp_right Or.inr
    · cases hstep
      refine Awake.of_session h hg rfl pool rfl (fun _ _ => ⟨rfl, rfl, id⟩) ?_ t
      exact (h s).holding hg rfl nofun rfl rfl id
  case refused s =>
    cases hstep
    refine Awake.of_session h hg rfl (pool.setInPool s _) rfl
      (fun t hts => ⟨inPool_setInPool_of_ne pool hts _, rfl, id⟩) ?_ t
    refine awake_move (fun hin => ?_) fun hsend => ?_
    · rw [inPool_setInPool_self] at hin
      cases hin
    · rcases hok s hg with hempty | ⟨k, hk⟩
      · exact absurd hempty hsend
      · refine .inr (.inr ⟨k, fun heq => ?_, hk⟩)
        rw [heq, hg] at hk
        cases hk
  case popped s =>
    split_ifs at hstep
    cases hstep
    refine Awake.of_session h hg rfl (pool.setWriteMu s _) rfl
      (fun _ _ => ⟨rfl, rfl, id⟩) ?_ t
    exact (h s).holding hg rfl nofun rfl rfl id
  case draining s =>
    cases hmsgs : pool.send s with
    | nil =>
      simp only [hmsgs] at hstep
      cases hstep
      refine Awake.of_session h hg rfl pool rfl (fun _ _ => ⟨rfl, rfl, id⟩) ?_ t
      exact (h s).holding hg rfl nofun rfl rfl id
    | cons =>
      simp only [hmsgs] at hstep
      cases hstep
      refine Awake.of_session h hg rfl (pool.setSend s _) rfl
        (fun t hts => ⟨rfl, send_setSend_of_ne pool hts _, id⟩) ?_ t
      refine (h s).holding hg rfl nofun rfl rfl fun _ => ?_
      rw [hmsgs]
      exact nofun
  case received s =>
    cases hstep
    refine Awake.of_session h hg rfl pool rfl (fun _ _ => ⟨rfl, rfl, id⟩) ?_ t
    refine (h s).holding hg ?_ nofun rfl rfl id
    cases written <;> rfl
  case drained s =>
    cases hstep
    refine Awake.of_session h hg rfl (pool.setWriteMu s _) rfl
      (fun _ _ => ⟨rfl, rfl, id⟩) ?_ t
    exact (h s).holding hg rfl nofun rfl rfl id
  case unlocked s =>
    cases hstep
    refine Awake.of_session h hg rfl (pool.setInPool s _) rfl
      (fun t hts => ⟨inPool_setInPool_of_ne pool hts _, rfl, id⟩) ?_ t
    refine awake_move (fun hin => ?_) fun _ => .inr (.inl rfl)
    rw [inPool_setInPool_self] at hin
    cases hin
  case cleared s =>
    have htoken := (h s).token_others hg nofun
    cases hmsgs : pool.send s with
    | nil =>
      simp only [hmsgs] at hstep
      cases hstep
      refine Awake.of_session h hg rfl pool rfl (fun _ _ => ⟨rfl, rfl, id⟩) ?_ t
      exact awake_move (fun hin => (htoken hin).imp_right .inr) fun hsend => absurd hmsgs hsend
    | cons =>
      simp only [hmsgs] at hstep
      cases hstep
      refine Awake.of_session h hg rfl pool rfl (fun _ _ => ⟨rfl, rfl, id⟩) ?_ t
      exact awake_move (fun hin => (htoken hin).imp_right .inr) fun _ => .inr (.inl rfl)

theorem Awake.step {event : PoolEvent σ ι κ μ} (h : ∀ t, pool.Awake t) (hok : pool.Roomy event)
    (hstep : pool.step event = some pool') (t : σ) : pool'.Awake t := by
  cases event with
  | send i s msg | enqueue i s =>
    rw [WritePool.step] at hstep
    split at hstep
    · next hidle =>
      cases hstep
      exact (h t).begin hidle _
    · cases hstep
  | take =>
    rw [WritePool.step] at hstep
    split at hstep
    · next hidle hqueue =>
      cases hstep
      exact (h t).taken hidle hqueue
    · cases hstep
  | handOver =>
    rw [WritePool.step] at hstep
    split at hstep
    · next hwon hidle =>
      split_ifs at hstep
      cases hstep
      exact (h t).handedOver hwon hidle
    · cases hstep
  | next => exact Awake.advance h hok hstep t
  | ping s | pinged s =>
    rw [WritePool.step] at hstep
    split_ifs at hstep
    cases hstep
    exact ⟨(h t).token, (h t).seen⟩
  | close =>
    cases hstep
    exact ⟨(h t).token, (h t).seen⟩
  | stop =>
    rw [WritePool.step] at hstep
    split at hstep
    · next hidle =>
      split_ifs at hstep
      cases hstep
      exact (h t).begin hidle _
    · cases hstep

/-- A session that has messages and that nobody is concerned with is in the queue. -/
theorem no_lost_wakeup {capacity backpressure : ℕ} {events : List (PoolEvent σ ι κ μ)}
    (hok : Along step Roomy (start capacity backpressure) events)
    (hrun : run step (start capacity backpressure) events = some pool) (s : σ)
    (hsend : pool.send s ≠ []) (hquiet : ∀ g, (pool.stage g).session ≠ some s) :
    s ∈ pool.queue := by
  have hawake := invariant_along (I := fun pool : WritePool σ ι κ μ => ∀ s, pool.Awake s)
    (fun _ _ _ h hok hstep => Awake.step h hok hstep) (awake_start capacity backpressure) hok hrun
  exact (hawake s).mem_queue hsend hquiet

end Moves

/-! ### One writer at a time -/

section Writers
open StageCount PoolStage

variable [DecidableEq σ] [Fintype ι] [Fintype κ]

def Locked (pool : WritePool σ ι κ μ) (s : σ) : Prop :=
  (pool.writeMu s).toNat = (pool.pinging s).toNat + total (locks s) pool.stage

variable [DecidableEq ι] [DecidableEq κ] {pool pool' : WritePool σ ι κ μ} {g : ι ⊕ κ} {s : σ}

section
variable (h : pool.Locked s)
include h

theorem Locked.move {next : PoolStage σ μ} (hstage : pool'.stage = pool.stage)
    (hping : pool'.pinging = pool.pinging) (hmu : (pool'.writeMu s).toNat +
      (pool.stage g).locks s = (pool.writeMu s).toNat + next.locks s) :
    (pool'.move g next).Locked s := by
  have htotal := total_update (locks s) pool.stage g next
  simp only [Locked, WritePool.move, hstage, hping] at h ⊢
  omega

theorem Locked.advance {written : Bool} (hstep : pool.advance g written = some pool') :
    pool'.Locked s := by
  rw [WritePool.advance] at hstep
  cases hg : pool.stage g <;> simp only [hg, reduceCtorEq] at hstep
  case popped =>
    split_ifs at hstep
    cases hstep
    refine h.move rfl rfl ?_
    simp only [setWriteMu, update_apply, hg, locks]
    split_ifs <;> simp_all
  case drained =>
    cases hstep
    refine h.move rfl rfl ?_
    -- the mutex is locked, since this goroutine holds it
    have hle : (pool.stage g).locks s ≤ total (locks s) pool.stage := le_total g
    have hmu := Bool.toNat_le (pool.writeMu s)
    rw [Locked] at h
    simp only [setWriteMu, update_apply, hg, locks] at hle ⊢
    split_ifs at hle ⊢ <;> simp
    omega
  all_goals repeat' split at hstep
  all_goals
    cases hstep
    exact h.move rfl rfl (by rw [hg]; rfl)

theorem Locked.step {event : PoolEvent σ ι κ μ} (hstep : pool.step event = some pool') :
    pool'.Locked s := by
  cases event <;> simp only [WritePool.step] at hstep
  case next => exact h.advance hstep
  case close =>
    cases hstep
    exact h
  case ping | pinged =>
    split_ifs at hstep
    cases hstep
    have hmu := Bool.toNat_le (pool.writeMu s)
    simp only [Locked, setWriteMu, update_apply] at h ⊢
    split_ifs
    · simp_all
    · exact h
  case handOver =>
    split at hstep
    · next hwon hidle =>
      split_ifs at hstep
      cases hstep
      refine Locked.move (h.move rfl rfl (by rw [hidle]; rfl)) rfl rfl ?_
      simp only [WritePool.move, update_apply, hwon]
      split_ifs <;> rfl
    · cases hstep
  all_goals repeat' split at hstep
  all_goals cases hstep
  all_goals exact h.move rfl rfl (by rw [‹pool.stage _ = .idle›]; rfl)

end

/-- A ping and the goroutines that hold the mutex of a session are at most one. A goroutine waits
only for the mutex, and whoever holds it can go on. -/
theorem one_writer {capacity backpressure : ℕ} {events : List (PoolEvent σ ι κ μ)}
    (hrun : run step (start capacity backpressure) events = some pool) :
    (∀ s, (pool.pinging s).toNat + total (locks s) pool.stage ≤ 1) ∧
    ∀ g written, pool.stage g ≠ .idle → pool.stage g ≠ .stopped → pool.advance g written = none →
      ∃ s, pool.stage g = .popped s ∧ (pool.pinging s = true ∨
        ∃ h, (pool.stage h).locks s ≠ 0 ∧ pool.advance h written ≠ none) := by
  have hlocked : ∀ s, pool.Locked s := fun s =>
    invariant (I := fun pool : WritePool σ ι κ μ => pool.Locked s)
      (fun _ _ _ h hstep => h.step hstep) (by simp [Locked, start, total, locks]) hrun
  refine ⟨fun s => hlocked s ▸ Bool.toNat_le _, fun g written hidle hstopped hwait => ?_⟩
  rw [WritePool.advance] at hwait
  cases hg : pool.stage g <;> simp only [hg] at hwait
  case popped s =>
    refine ⟨s, rfl, or_iff_not_imp_left.mpr fun hping => ?_⟩
    by_contra hnone
    have hs := hlocked s
    rw [Locked, total_eq_zero fun h => ?_] at hs
    · simp_all
    · by_contra hh
      exact hnone ⟨h, hh, by grind [WritePool.advance, locks]⟩
  all_goals grind

theorem ping_keeps_worker_out : ∃ pool : WritePool Bool (Fin 1) (Fin 1) ℕ,
    run step (start 1 2) [.enqueue 0 true, .next (.inl 0) true, .next (.inl 0) true, .take 0,
      .ping true] = some pool ∧ total (locks true) pool.stage = 0 := by
  refine exists_run (fun pool => pool.pinging true = true) (by decide +kernel) ?_
  intro pool hpool hping
  simpa [hping] using (one_writer hpool).1 true

end Writers

/-! ### Two runs -/

instance [Fintype ι] [Fintype κ] [DecidableEq σ] (pool : WritePool σ ι κ μ) :
    (event : PoolEvent σ ι κ μ) → Decidable (pool.Roomy event)
  | .next g _ =>
    match h : pool.stage g with
    | .refused s =>
      decidable_of_iff ((pool.send s).isEmpty = true ∨ ∃ h, (pool.stage h).looked = some s)
        (by simp [Roomy, h])
    | .idle | .stopped | .called _ _ | .entered _ | .won _ | .popped _ | .draining _ | .received _
    | .drained _ | .unlocked _ | .cleared _ => isTrue fun _ hs => nomatch h.symm.trans hs
  | .send _ _ _ | .enqueue _ _ | .take _ | .handOver _ _ | .ping _ | .pinged _ | .close | .stop _ =>
    isTrue trivial

def failedWrite : List (PoolEvent Bool (Fin 2) (Fin 1) ℕ) :=
  .send 0 true 1 :: List.replicate 3 (.next (.inl 0) true) ++ [.take 0, .next (.inr 0) true] ++
    .send 1 true 2 :: List.replicate 2 (.next (.inl 1) true) ++
      List.replicate 7 (.next (.inr 0) false)

theorem failed_write_in_queue :
    ∃ pool, run step (start 1 2) failedWrite = some pool ∧ pool.send true = [2] ∧
      true ∈ pool.queue := by
  refine exists_run (fun pool => pool.send true = [2] ∧ ∀ g, (pool.stage g).session ≠ some true)
    (by decide +kernel) ?_
  rintro pool hpool ⟨hsend, hquiet⟩
  exact ⟨hsend, no_lost_wakeup (by decide +kernel) hpool true (by simp [hsend]) hquiet⟩

def fullQueue : List (PoolEvent Bool (Fin 2) (Fin 1) ℕ) :=
  .send 0 true 1 :: List.replicate 3 (.next (.inl 0) true) ++
    .send 1 false 2 :: List.replicate 4 (.next (.inl 1) true)

theorem full_queue_loses_wakeup : ((run step (start 1 2) fullQueue).map fun pool =>
      (pool.send false, pool.queue, decide (∀ g, pool.stage g = .idle))) =
        some ([2], [true], true) := by
  decide +kernel

end WritePool

end Sodp.GoServer
