import Mathlib.Data.Int.Order.Basic
import Sodp.StageCount
import Sodp.Transition

/-!
# The write pool

`write_pool.rs` in pool mode, for one handle; each step is one atomic operation of the source on the
counter, the flag, the channel, a mutex or the queue. Whoever sets `in_pool` owes the queue an
entry, and only the worker that has taken the entry clears the flag (`tokens`). A message in the
channel is announced by the flag, or the sender that has just entered it or the worker that has just
cleared the flag is about to look (`awake`).
-/

namespace Sodp
open Function Transition List Option

inductive SenderStage (μ : Type*) where
  | idle
  | added (msg : μ)
  | overflowed
  | undone
  | entered
  | won
deriving DecidableEq

inductive WorkerStage (μ : Type*) where
  | idle
  | popped
  | rxLocked
  | draining
  | received (msg : μ)
  | counted (msg : μ)
  | flushing
  | flushed
  | rxDropped
  | unlocked
  | reset
  | rechecked
  | won
deriving DecidableEq

inductive FeedOutcome where
  | skipped
  | fed
  | failed
deriving DecidableEq

/-- One handle of the pool with its senders and workers. `pending` is an integer here, so
that it could be seen to underflow; `queued` counts the handle's entries in the pool
queue; `entered` and `fed` are what entered the channel and what was fed to the socket. -/
structure WritePool (ι κ μ : Type*) where
  channel : List μ
  capacity : ℕ
  pending : ℤ
  inPool : Bool
  queued : ℕ
  rxLock : Bool
  wsLock : Bool
  cancelled : Bool
  sender : ι → SenderStage μ
  worker : κ → WorkerStage μ
  entered : List μ
  fed : List μ

namespace WritePool
open StageCount

variable {ι κ μ : Type*}

def newHandle (backpressure : ℕ) : WritePool ι κ μ where
  channel := []
  capacity := backpressure
  pending := 0
  inPool := false
  queued := 0
  rxLock := false
  wsLock := false
  cancelled := false
  sender := fun _ => .idle
  worker := fun _ => .idle
  entered := []
  fed := []

inductive Event (ι κ μ : Type*) where
  | call (i : ι) (msg : μ)
  | sender (i : ι)
  | worker (j : κ) (outcome : FeedOutcome)

section Step
variable [DecidableEq ι] [DecidableEq κ]

def setSender (pool : WritePool ι κ μ) (i : ι) (next : SenderStage μ) : WritePool ι κ μ :=
  { pool with sender := update pool.sender i next }

def setWorker (pool : WritePool ι κ μ) (j : κ) (next : WorkerStage μ) : WritePool ι κ μ :=
  { pool with worker := update pool.worker j next }

def stepCall (pool : WritePool ι κ μ) (i : ι) (msg : μ) : Option (WritePool ι κ μ) :=
  match pool.sender i with
  | .idle => some ({ pool with pending := pool.pending + 1 }.setSender i (.added msg))
  | _ => none

def stepSender (pool : WritePool ι κ μ) (i : ι) : Option (WritePool ι κ μ) :=
  match pool.sender i with
  | .idle => none
  | .added msg =>
    -- `try_send`
    if pool.channel.length < pool.capacity then
      some ({ pool with
        channel := pool.channel ++ [msg], entered := pool.entered ++ [msg] }.setSender i .entered)
    else some (pool.setSender i .overflowed)
  | .overflowed => some ({ pool with pending := pool.pending - 1 }.setSender i .undone)
  | .undone => some ({ pool with cancelled := true }.setSender i .idle)
  | .entered =>
    -- `pool_enqueue`: the compare-exchange of `in_pool`
    if pool.inPool then some (pool.setSender i .idle)
    else some ({ pool with inPool := true }.setSender i .won)
  | .won => some ({ pool with queued := pool.queued + 1 }.setSender i .idle)

def stepWorker (pool : WritePool ι κ μ) (j : κ) (outcome : FeedOutcome) :
    Option (WritePool ι κ μ) :=
  match pool.worker j with
  | .idle =>
    if 0 < pool.queued then
      some ({ pool with queued := pool.queued - 1 }.setWorker j .popped)
    else none
  | .popped => if pool.rxLock then none else
    some ({ pool with rxLock := true }.setWorker j .rxLocked)
  | .rxLocked =>
    if pool.wsLock then none else some ({ pool with wsLock := true }.setWorker j .draining)
  | .draining =>
    match pool.channel with
    | [] => some (pool.setWorker j .flushing)
    | msg :: rest => some ({ pool with channel := rest }.setWorker j (.received msg))
  | .received msg => some ({ pool with pending := pool.pending - 1 }.setWorker j (.counted msg))
  | .counted msg =>
    match outcome with
    | .skipped => some (pool.setWorker j .draining)
    | .fed => some ({ pool with fed := pool.fed ++ [msg] }.setWorker j .draining)
    | .failed => some (pool.setWorker j .flushing)
  | .flushing => some (pool.setWorker j .flushed)
  | .flushed => some ({ pool with rxLock := false }.setWorker j .rxDropped)
  | .rxDropped => some ({ pool with wsLock := false }.setWorker j .unlocked)
  | .unlocked => some ({ pool with inPool := false }.setWorker j .reset)
  | .reset =>
    if 0 < pool.pending then some (pool.setWorker j .rechecked) else some (pool.setWorker j .idle)
  | .rechecked =>
    if pool.inPool then some (pool.setWorker j .idle)
    else some ({ pool with inPool := true }.setWorker j .won)
  | .won => some ({ pool with queued := pool.queued + 1 }.setWorker j .idle)

def step (pool : WritePool ι κ μ) : Event ι κ μ → Option (WritePool ι κ μ)
  | .call i msg => pool.stepCall i msg
  | .sender i => pool.stepSender i
  | .worker j outcome => pool.stepWorker j outcome

end Step

end WritePool

def SenderStage.outside {μ : Type*} : SenderStage μ → ℕ
  | .added _ => 1
  | .overflowed => 1
  | _ => 0

def WorkerStage.outside {μ : Type*} : WorkerStage μ → ℕ
  | .received _ => 1
  | _ => 0

def SenderStage.token {μ : Type*} : SenderStage μ → ℕ
  | .won => 1
  | _ => 0

def WorkerStage.Draining {μ : Type*} : WorkerStage μ → Bool
  | .idle => false
  | .reset => false
  | .rechecked => false
  | .won => false
  | _ => true

def WorkerStage.token {μ : Type*} : WorkerStage μ → ℕ
  | .idle => 0
  | .reset => 0
  | .rechecked => 0
  | _ => 1

def WorkerStage.holding {μ : Type*} : WorkerStage μ → Option μ
  | .received msg => some msg
  | .counted msg => some msg
  | _ => none

namespace WritePool
open StageCount

variable {ι κ μ : Type*} [Fintype ι] [Fintype κ]

structure Protocol (pool : WritePool ι κ μ) : Prop where
  pending : pool.pending = pool.channel.length + total SenderStage.outside pool.sender +
    total WorkerStage.outside pool.worker
  tokens : pool.queued + total SenderStage.token pool.sender +
    total WorkerStage.token pool.worker = pool.inPool.toNat
  awake : pool.channel ≠ [] → pool.inPool = true ∨ (∃ i, pool.sender i = .entered) ∨
    ∃ j, pool.worker j = .reset ∨ pool.worker j = .rechecked
  order : ∃ taken, pool.entered = taken ++ pool.channel ∧ pool.fed.Sublist taken ∧
    ∀ j msg, (pool.worker j).holding = some msg → (pool.fed ++ [msg]).Sublist taken

theorem protocol_newHandle (backpressure : ℕ) :
    Protocol (newHandle backpressure : WritePool ι κ μ) where
  pending := by simp [newHandle, total, SenderStage.outside, WorkerStage.outside]
  tokens := by simp [newHandle, total, SenderStage.token, WorkerStage.token]
  awake h := absurd rfl h
  order := ⟨[], rfl, List.Sublist.refl _, fun _ _ h => by cases h⟩

section Counts
variable {pool : WritePool ι κ μ}

theorem Protocol.inPool_of_token (h : Protocol pool) {j : κ} (hj : (pool.worker j).token = 1) :
    pool.inPool = true := by
  have hle : (pool.worker j).token ≤ total WorkerStage.token pool.worker := le_total j
  have htokens := h.tokens
  cases hin : pool.inPool with
  | true => rfl
  | false =>
    rw [hin, Bool.toNat_false] at htokens
    omega

theorem Protocol.length_le_pending (h : Protocol pool) :
    (pool.channel.length : ℤ) ≤ pool.pending := by
  rw [h.pending]
  omega

theorem Protocol.queued_le (h : Protocol pool) :
    pool.queued + (Finset.univ.filter fun j => (pool.worker j).Draining = true).card ≤ 1 := by
  have hcard : (Finset.univ.filter fun j => (pool.worker j).Draining = true).card ≤
      total WorkerStage.token pool.worker := by
    rw [Finset.card_filter]
    refine Finset.sum_le_sum fun j _ => ?_
    cases pool.worker j <;> simp [WorkerStage.Draining, WorkerStage.token]
  have htokens := h.tokens
  have hbool := Bool.toNat_le pool.inPool
  omega

end Counts

variable {msg : μ}

section Senders
variable [DecidableEq ι] {pool pool' : WritePool ι κ μ}

variable {i : ι}

theorem Protocol.sender_moves (h : Protocol pool) {stage next : SenderStage μ}
    (hi : pool.sender i = stage) (hsender : pool'.sender = update pool.sender i next)
    (hworker : pool'.worker = pool.worker)
    (hpending : pool'.pending - pool'.channel.length + stage.outside =
      pool.pending - pool.channel.length + next.outside)
    (htokens : pool'.queued + next.token + pool.inPool.toNat =
      pool.queued + stage.token + pool'.inPool.toNat)
    (hawake : pool'.channel ≠ [] → pool'.inPool = true ∨ next = .entered ∨
      (stage ≠ .entered ∧ pool.channel ≠ [] ∧ pool'.inPool = pool.inPool))
    (horder : pool'.fed = pool.fed ∧ ∃ more, pool'.entered = pool.entered ++ more ∧
      pool'.channel = pool.channel ++ more) :
    Protocol pool' := by
  have houtside := total_update SenderStage.outside pool.sender i next
  have htoken := total_update SenderStage.token pool.sender i next
  rw [hi] at houtside htoken
  refine ⟨?_, ?_, fun hchannel => ?_, ?_⟩
  · have hold := h.pending
    rw [hsender, hworker]
    omega
  · have hold := h.tokens
    rw [hsender, hworker]
    omega
  · rcases hawake hchannel with hin | rfl | ⟨hstage, hold, hin⟩
    · exact .inl hin
    · exact .inr (.inl ⟨i, by rw [hsender, update_self]⟩)
    · rw [hin, hsender, hworker]
      rcases h.awake hold with hin | ⟨k, hk⟩ | hk
      · exact .inl hin
      · refine .inr (.inl ⟨k, ?_⟩)
        rw [update_of_ne, hk]
        rintro rfl
        exact hstage (hi.symm.trans hk)
      · exact .inr (.inr hk)
  · obtain ⟨hfed, more, hentered, hchannel⟩ := horder
    obtain ⟨taken, htaken, hsub, hholding⟩ := h.order
    rw [hfed, hworker]
    exact ⟨taken, by rw [hentered, hchannel, htaken, append_assoc], hsub, hholding⟩

theorem Protocol.stepCall (h : Protocol pool) (hstep : pool.stepCall i msg = some pool') :
    Protocol pool' := by
  rw [WritePool.stepCall] at hstep
  cases hi : pool.sender i with
  | idle =>
    rw [hi] at hstep
    cases hstep
    refine h.sender_moves hi rfl rfl ?_ rfl (fun hc => ?_) ⟨rfl, [], by simp [setSender]⟩
    · simp only [setSender, SenderStage.outside]
      omega
    · exact .inr (.inr ⟨by simp, hc, rfl⟩)
  | _ => simp [hi] at hstep

theorem Protocol.stepSender (h : Protocol pool) (hstep : pool.stepSender i = some pool') :
    Protocol pool' := by
  rw [WritePool.stepSender] at hstep
  cases hi : pool.sender i <;> simp only [hi, reduceCtorEq] at hstep
  case added msg =>
    split_ifs at hstep
    · cases hstep
      refine h.sender_moves hi rfl rfl ?_ rfl (fun _ => .inr (.inl rfl)) ⟨rfl, [msg], rfl, rfl⟩
      simp only [setSender, SenderStage.outside, length_append, length_singleton]
      omega
    · cases hstep
      exact h.sender_moves hi rfl rfl rfl rfl (fun hc => .inr (.inr ⟨by simp, hc, rfl⟩))
        ⟨rfl, [], by simp [setSender]⟩
  case overflowed =>
    cases hstep
    refine h.sender_moves hi rfl rfl ?_ rfl (fun hc => .inr (.inr ⟨by simp, hc, rfl⟩))
      ⟨rfl, [], by simp [setSender]⟩
    simp only [setSender, SenderStage.outside]
    omega
  case undone =>
    cases hstep
    exact h.sender_moves hi rfl rfl rfl rfl (fun hc => .inr (.inr ⟨by simp, hc, rfl⟩))
      ⟨rfl, [], by simp [setSender]⟩
  case entered =>
    split_ifs at hstep with hin
    · cases hstep
      exact h.sender_moves hi rfl rfl rfl rfl (fun _ => .inl hin) ⟨rfl, [], by simp [setSender]⟩
    · cases hstep
      refine h.sender_moves hi rfl rfl rfl ?_ (fun _ => .inl rfl) ⟨rfl, [], by simp [setSender]⟩
      simp [setSender, SenderStage.token, hin]
  case won =>
    cases hstep
    refine h.sender_moves hi rfl rfl rfl ?_ (fun hc => .inr (.inr ⟨by simp, hc, rfl⟩))
      ⟨rfl, [], by simp [setSender]⟩
    simp only [setSender, SenderStage.token]

end Senders

section Workers
variable [DecidableEq κ] {pool pool' : WritePool ι κ μ}

variable {j : κ} {next : WorkerStage μ}

section
variable (h : Protocol pool)
include h

variable {stage : WorkerStage μ}

theorem Protocol.worker_moves
    (hj : pool.worker j = stage) (hworker : pool'.worker = update pool.worker j next)
    (hsender : pool'.sender = pool.sender)
    (hpending : pool'.pending - pool'.channel.length + stage.outside =
      pool.pending - pool.channel.length + next.outside)
    (htokens : pool'.queued + next.token + pool.inPool.toNat =
      pool.queued + stage.token + pool'.inPool.toNat)
    (hawake : pool'.channel ≠ [] → pool'.inPool = true ∨ (next = .reset ∨ next = .rechecked) ∨
      ((stage ≠ .reset ∧ stage ≠ .rechecked) ∧ pool.channel ≠ [] ∧ pool'.inPool = pool.inPool))
    (horder : ∃ taken, pool'.entered = taken ++ pool'.channel ∧ pool'.fed.Sublist taken ∧
      ∀ j msg, (pool'.worker j).holding = some msg → (pool'.fed ++ [msg]).Sublist taken) :
    Protocol pool' := by
  have houtside := total_update WorkerStage.outside pool.worker j next
  have htoken := total_update WorkerStage.token pool.worker j next
  rw [hj] at houtside htoken
  refine ⟨?_, ?_, fun hchannel => ?_, horder⟩
  · have hold := h.pending
    rw [hsender, hworker]
    omega
  · have hold := h.tokens
    rw [hsender, hworker]
    omega
  · rcases hawake hchannel with hin | hnext | ⟨hstage, hold, hin⟩
    · exact .inl hin
    · exact .inr (.inr ⟨j, by rwa [hworker, update_self]⟩)
    · rw [hin, hsender, hworker]
      rcases h.awake hold with hin | hk | ⟨k, hk⟩
      · exact .inl hin
      · exact .inr (.inl hk)
      · refine .inr (.inr ⟨k, ?_⟩)
        rw [update_of_ne]
        · exact hk
        · rintro rfl
          rw [hj] at hk
          exact hk.elim hstage.1 hstage.2

theorem Protocol.order_of_kept
    (hheld : ∀ msg, next.holding = some msg → (pool.worker j).holding = some msg) :
    ∃ taken, pool.entered = taken ++ pool.channel ∧ pool.fed.Sublist taken ∧
      ∀ k msg, (update pool.worker j next k).holding = some msg →
        (pool.fed ++ [msg]).Sublist taken := by
  obtain ⟨taken, htaken, hsub, hholding⟩ := h.order
  refine ⟨taken, htaken, hsub, fun k msg hk => ?_⟩
  by_cases hkj : k = j
  · subst hkj
    rw [update_self] at hk
    exact hholding k msg (hheld msg hk)
  · rw [update_of_ne hkj] at hk
    exact hholding k msg hk

theorem Protocol.holding_eq_none {k : κ} (hj : (pool.worker j).token = 1)
    (hkj : k ≠ j) : (pool.worker k).holding = none := by
  cases hk : (pool.worker k).holding with
  | none => rfl
  | some =>
    have htoken : (pool.worker k).token = 1 := by
      cases hstage : pool.worker k <;> simp [hstage, WorkerStage.holding] at hk <;> rfl
    have htwo : (pool.worker k).token + (pool.worker j).token ≤
        total WorkerStage.token pool.worker := pair_le_total hkj
    have hone := h.tokens
    have hbool := Bool.toNat_le pool.inPool
    omega

theorem Protocol.worker_quiet (hj : pool.worker j = stage) (rxLock wsLock : Bool)
    (hstage : stage.Draining = true ∧ stage.outside = 0)
    (hnext : next.Draining = true ∧ next.outside = 0 ∧ next.holding = none) :
    Protocol ({ pool with rxLock := rxLock, wsLock := wsLock }.setWorker j next) := by
  have htoken : ∀ {stage : WorkerStage μ}, stage.Draining = true → stage.token = 1 := by
    intro stage hdraining
    cases stage <;> first | rfl | cases hdraining
  refine h.worker_moves hj rfl rfl ?_ ?_ (fun hc => .inr (.inr ⟨?_, hc, rfl⟩)) ?_
  · rw [hstage.2, hnext.2.1]
    rfl
  · rw [htoken hstage.1, htoken hnext.1]
    rfl
  · constructor <;> rintro rfl <;> cases hstage.1
  · exact h.order_of_kept fun msg hmsg => by simp [hnext.2.2] at hmsg

theorem Protocol.receive {rest : List μ}
    (hj : pool.worker j = .draining) (hchannel : pool.channel = msg :: rest) :
    Protocol ({ pool with channel := rest }.setWorker j (.received msg)) := by
  refine h.worker_moves hj rfl rfl ?_ rfl (fun _ => ?_) ?_
  · simp only [setWorker, WorkerStage.outside, hchannel, length_cons]
    omega
  · exact .inr (.inr ⟨by simp, by simp [hchannel], rfl⟩)
  · obtain ⟨taken, htaken, hsub, -⟩ := h.order
    refine ⟨taken ++ [msg], ?_, hsub.trans (sublist_append_left _ _), fun k m hk => ?_⟩
    · simp [setWorker, htaken, hchannel]
    · change (update pool.worker j (.received msg) k).holding = some m at hk
      by_cases hkj : k = j
      · subst hkj
        rw [update_self, WorkerStage.holding, some.injEq] at hk
        rw [← hk]
        exact hsub.append (List.Sublist.refl _)
      · rw [update_of_ne hkj, h.holding_eq_none (by rw [hj]; rfl) hkj] at hk
        cases hk

theorem Protocol.feed (hj : pool.worker j = .counted msg) :
    Protocol ({ pool with fed := pool.fed ++ [msg] }.setWorker j .draining) := by
  refine h.worker_moves hj rfl rfl rfl rfl (fun hc => .inr (.inr ⟨by simp, hc, rfl⟩)) ?_
  obtain ⟨taken, htaken, -, hholding⟩ := h.order
  refine ⟨taken, htaken, hholding j msg (by rw [hj]; rfl), fun k m hk => ?_⟩
  change (update pool.worker j .draining k).holding = some m at hk
  by_cases hkj : k = j
  · subst hkj
    rw [update_self] at hk
    cases hk
  · rw [update_of_ne hkj, h.holding_eq_none (by rw [hj]; rfl) hkj] at hk
    cases hk

theorem Protocol.stepWorker {outcome : FeedOutcome}
    (hstep : pool.stepWorker j outcome = some pool') : Protocol pool' := by
  rw [WritePool.stepWorker] at hstep
  cases hj : pool.worker j <;> simp only [hj] at hstep
  case idle =>
    split_ifs at hstep with hqueued
    cases hstep
    refine h.worker_moves hj rfl rfl rfl ?_ (fun hc => .inr (.inr ⟨by simp, hc, rfl⟩))
      (h.order_of_kept fun _ hmsg => by cases hmsg)
    simp only [setWorker, WorkerStage.token]
    omega
  case popped | rxLocked =>
    split_ifs at hstep
    cases hstep
    exact h.worker_quiet hj _ _ ⟨rfl, rfl⟩ ⟨rfl, rfl, rfl⟩
  case draining =>
    cases hchannel : pool.channel with
    | nil =>
      rw [hchannel] at hstep
      cases hstep
      exact h.worker_quiet hj _ _ ⟨rfl, rfl⟩ ⟨rfl, rfl, rfl⟩
    | cons =>
      rw [hchannel] at hstep
      cases hstep
      exact h.receive hj hchannel
  case received =>
    cases hstep
    refine h.worker_moves hj rfl rfl ?_ rfl (fun hc => .inr (.inr ⟨by simp, hc, rfl⟩))
      (h.order_of_kept fun _ hmsg => by rw [hj]; exact hmsg)
    simp only [setWorker, WorkerStage.outside]
    omega
  case counted =>
    cases outcome with
    | skipped =>
      cases hstep
      exact h.worker_quiet hj _ _ ⟨rfl, rfl⟩ ⟨rfl, rfl, rfl⟩
    | fed =>
      cases hstep
      exact h.feed hj
    | failed =>
      cases hstep
      exact h.worker_quiet hj _ _ ⟨rfl, rfl⟩ ⟨rfl, rfl, rfl⟩
  case flushing | flushed | rxDropped =>
    cases hstep
    exact h.worker_quiet hj _ _ ⟨rfl, rfl⟩ ⟨rfl, rfl, rfl⟩
  case unlocked =>
    cases hstep
    have hin := h.inPool_of_token (j := j) (by rw [hj]; rfl)
    refine h.worker_moves hj rfl rfl rfl ?_ (fun _ => .inr (.inl (.inl rfl)))
      (h.order_of_kept fun _ hmsg => by cases hmsg)
    simp [setWorker, WorkerStage.token, hin]
  case reset =>
    split_ifs at hstep with hpending
    · cases hstep
      exact h.worker_moves hj rfl rfl rfl rfl (fun _ => .inr (.inl (.inr rfl)))
        (h.order_of_kept fun _ hmsg => by cases hmsg)
    · cases hstep
      refine h.worker_moves hj rfl rfl rfl rfl (fun hc => absurd ?_ hc)
        (h.order_of_kept fun _ hmsg => by cases hmsg)
      have hlength := h.length_le_pending
      change pool.channel = []
      rw [← length_eq_zero_iff]
      omega
  case rechecked =>
    split_ifs at hstep with hin
    · cases hstep
      exact h.worker_moves hj rfl rfl rfl rfl (fun _ => .inl hin)
        (h.order_of_kept fun _ hmsg => by cases hmsg)
    · cases hstep
      refine h.worker_moves hj rfl rfl rfl ?_ (fun _ => .inl rfl)
        (h.order_of_kept fun _ hmsg => by cases hmsg)
      simp [setWorker, WorkerStage.token, hin]
  case won =>
    cases hstep
    refine h.worker_moves hj rfl rfl rfl ?_ (fun hc => .inr (.inr ⟨by simp, hc, rfl⟩))
      (h.order_of_kept fun _ hmsg => by cases hmsg)
    simp only [setWorker, WorkerStage.token]

end

end Workers

section Runs
variable [DecidableEq ι] [DecidableEq κ] {pool : WritePool ι κ μ}

theorem protocol_run {backpressure : ℕ} {events : List (Event ι κ μ)}
    (hrun : run step (newHandle backpressure) events = some pool) : Protocol pool := by
  refine invariant (I := Protocol) (fun s e t h hstep => ?_) (protocol_newHandle backpressure) hrun
  cases e with
  | call => exact h.stepCall hstep
  | sender => exact h.stepSender hstep
  | worker => exact h.stepWorker hstep

/-- Whatever the interleaving: `pending` never falls below the length of the channel, the
handle is at most once in the queue or being drained, a message is never left in the channel
without an entry in the queue, and messages are fed in the order in which they came. -/
theorem write_pool_sound {backpressure : ℕ} {events : List (Event ι κ μ)}
    (hrun : run step (newHandle backpressure) events = some pool) :
    (0 ≤ pool.pending ∧ (pool.channel.length : ℤ) ≤ pool.pending) ∧
    pool.queued + (Finset.univ.filter fun j => (pool.worker j).Draining = true).card ≤ 1 ∧
    (pool.channel ≠ [] → (∀ i, pool.sender i = .idle) → (∀ j, pool.worker j = .idle) →
      pool.queued = 1) ∧ pool.fed.Sublist pool.entered := by
  have h := protocol_run hrun
  have hlength := h.length_le_pending
  refine ⟨⟨by omega, hlength⟩, h.queued_le, fun hchannel hsenders hworkers => ?_, ?_⟩
  · have hin : pool.inPool = true := by
      rcases h.awake hchannel with hin | ⟨i, hi⟩ | ⟨j, hj⟩
      · exact hin
      · rw [hsenders] at hi
        cases hi
      · rw [hworkers] at hj
        rcases hj with hj | hj <;> cases hj
    have htokens := h.tokens
    rw [total_eq_zero fun i => by rw [hsenders]; rfl, total_eq_zero fun j => by rw [hworkers]; rfl,
      hin] at htokens
    exact htokens
  · obtain ⟨_, htaken, hsub, -⟩ := h.order
    rw [htaken]
    exact hsub.trans (sublist_append_left _ _)

end Runs

def failedFeed : List (Event (Fin 2) (Fin 1) ℕ) :=
  [.call 0 1, .sender 0, .sender 0, .sender 0, .call 1 2, .sender 1, .sender 1] ++
    List.replicate 13 (.worker 0 .failed)

theorem write_pool_sound_failed :
    ∃ pool, run step (newHandle 2) failedFeed = some pool ∧ pool.channel = [2] ∧
      pool.pending = 1 ∧ pool.fed = [] ∧ pool.queued = 1 := by
  refine exists_run (fun pool => pool.channel = [2] ∧ pool.pending = 1 ∧ pool.fed = [] ∧
    (∀ i, pool.sender i = .idle) ∧ ∀ j, pool.worker j = .idle) (by decide +kernel) ?_
  rintro pool hpool ⟨hchannel, hpending, hfed, hsenders, hworkers⟩
  exact ⟨hchannel, hpending, hfed,
    (write_pool_sound hpool).2.2.1 (by simp [hchannel]) hsenders hworkers⟩

end WritePool

end Sodp
