import Sodp.GoDelta
import Sodp.Transition
import Mathlib.Logic.Function.Basic

/-!
# The fanout bus of the Go server

`fanout.go`: the subscribers of each key, and one channel with one worker for each key that was
ever watched. A channel is its position in `workers`. A worker takes a job, encodes it, copies the
subscribers and sends to them one by one. After an idle period it removes the channel of its key
and returns, whether or not the key is watched.
-/

namespace Sodp.GoServer
open Transition Function List Option

structure Subscriber where
  sessionID : String
  streamID : ℕ
deriving DecidableEq

structure FanoutJob where
  delta : DeltaEntry
  senderSessionID : String

inductive WorkerStage where
  | waiting
  | encoding (job : FanoutJob)
  | sending (job : FanoutJob) (rest : List Subscriber)
  | returned

structure Worker where
  key : String
  ch : List FanoutJob
  stage : WorkerStage

def Worker.Running (w : Worker) : Prop := w.stage ≠ .returned

structure FanoutBus where
  subs : String → List Subscriber
  keyChs : String → Option ℕ
  workers : List Worker

inductive BroadcastResult where
  | noChannel
  | queued
  | dropped
deriving DecidableEq

namespace FanoutBus

def new : FanoutBus := ⟨fun _ => [], fun _ => none, []⟩

def channelCap : ℕ := 256

def subscribe (b : FanoutBus) (key : String) (sub : Subscriber) : FanoutBus :=
  let subs := update b.subs key (b.subs key ++ [sub])
  match b.keyChs key with
  | some _ => { b with subs := subs }
  | none => {
      subs := subs
      keyChs := update b.keyChs key (some b.workers.length)
      workers := b.workers ++ [⟨key, [], .waiting⟩] }

def swapRemove {α : Type*} (l : List α) (i : ℕ) : List α :=
  match l.getLast? with
  | none => l
  | some last => (l.set i last).dropLast

def unsubscribe (b : FanoutBus) (key sessionID : String) (streamID : ℕ) : FanoutBus :=
  match (b.subs key).findIdx? fun s => s.sessionID = sessionID ∧ s.streamID = streamID with
  | none => b
  | some i => { b with subs := update b.subs key (swapRemove (b.subs key) i) }

def removeSession (b : FanoutBus) (sessionID : String) : FanoutBus :=
  { b with subs := fun key => (b.subs key).filter fun s => s.sessionID ≠ sessionID }

def setWorker (b : FanoutBus) (ch : ℕ) (w : Worker) : FanoutBus :=
  { b with workers := b.workers.set ch w }

def broadcast (b : FanoutBus) (delta : DeltaEntry) (senderSessionID : String) :
    FanoutBus × BroadcastResult :=
  match b.keyChs delta.key with
  | none => (b, .noChannel)
  | some ch =>
    match b.workers[ch]? with
    | none => (b, .noChannel)
    | some w =>
      if w.ch.length < channelCap then
        (b.setWorker ch { w with ch := w.ch ++ [⟨delta, senderSessionID⟩] }, .queued)
      else (b, .dropped)

/-! The worker: `take` receives a job, `snapshot` copies the subscribers under the lock, `send` goes
on with the next of them, and `idle` is the timer. -/

def take (b : FanoutBus) (ch : ℕ) : Option FanoutBus :=
  match b.workers[ch]? with
  | some ⟨key, job :: rest, .waiting⟩ => some (b.setWorker ch ⟨key, rest, .encoding job⟩)
  | _ => none

def snapshot (b : FanoutBus) (ch : ℕ) : Option FanoutBus :=
  match b.workers[ch]? with
  | some ⟨key, jobs, .encoding job⟩ =>
    some (b.setWorker ch ⟨key, jobs, .sending job (b.subs job.delta.key)⟩)
  | _ => none

/-- The new bus, and the message that goes to a subscriber. The sender of the delta is skipped. -/
def send (b : FanoutBus) (ch : ℕ) : Option (FanoutBus × Option (Subscriber × DeltaEntry)) :=
  match b.workers[ch]? with
  | some ⟨key, jobs, .sending _ []⟩ => some (b.setWorker ch ⟨key, jobs, .waiting⟩, none)
  | some ⟨key, jobs, .sending job (sub :: rest)⟩ =>
    some (b.setWorker ch ⟨key, jobs, .sending job rest⟩,
      if sub.sessionID = job.senderSessionID then none else some (sub, job.delta))
  | _ => none

def reap (b : FanoutBus) (ch : ℕ) (key : String) : FanoutBus where
  subs := b.subs
  keyChs := update b.keyChs key none
  workers := b.workers.set ch ⟨key, [], .returned⟩

/-- The timer fires while the worker waits; with a job in the channel it is only reset. -/
def idle (b : FanoutBus) (ch : ℕ) : Option FanoutBus :=
  match b.workers[ch]? with
  | some ⟨key, [], .waiting⟩ => some (b.reap ch key)
  | some ⟨_, _ :: _, .waiting⟩ => some b
  | _ => none

end FanoutBus

/-! ### Steps of the bus -/

inductive BusEvent where
  | subscribe (key : String) (sub : Subscriber)
  | unsubscribe (key sessionID : String) (streamID : ℕ)
  | removeSession (sessionID : String)
  | broadcast (delta : DeltaEntry) (senderSessionID : String)
  | take (ch : ℕ)
  | snapshot (ch : ℕ)
  | send (ch : ℕ)
  | idle (ch : ℕ)

namespace FanoutBus

def step (b : FanoutBus) : BusEvent → Option FanoutBus
  | .subscribe key sub => some (b.subscribe key sub)
  | .unsubscribe key sessionID streamID => some (b.unsubscribe key sessionID streamID)
  | .removeSession sessionID => some (b.removeSession sessionID)
  | .broadcast delta sender => some (b.broadcast delta sender).1
  | .take ch => b.take ch
  | .snapshot ch => b.snapshot ch
  | .send ch => (b.send ch).map Prod.fst
  | .idle ch => b.idle ch

structure Wired (b : FanoutBus) : Prop where
  served : ∀ key ch, b.keyChs key = some ch → ∃ w, b.workers[ch]? = some w ∧ w.key = key ∧ w.Running
  listed : ∀ ch w, b.workers[ch]? = some w → w.Running → b.keyChs w.key = some ch

def Served (b : FanoutBus) : Prop :=
  ∀ key, b.subs key ≠ [] →
    (∃ ch w, b.keyChs key = some ch ∧ b.workers[ch]? = some w ∧ w.key = key ∧ w.Running) ∧
    ∀ delta sender, delta.key = key → (b.broadcast delta sender).2 ≠ .noChannel

/-- No worker reaps itself while its key has a subscriber. -/
def Unwatched (b : FanoutBus) : BusEvent → Prop
  | .idle ch => ∀ w ∈ b.workers[ch]?, w.ch = [] → b.subs w.key = []
  | _ => True

section Steps
variable {b : FanoutBus}

variable {ch : ℕ} {m : FanoutBus} {e : BusEvent}

theorem take_eq_some (h : b.take ch = some m) :
    ∃ key job rest, b.workers[ch]? = some ⟨key, job :: rest, .waiting⟩ ∧
      m = b.setWorker ch ⟨key, rest, .encoding job⟩ := by
  rw [take] at h
  split at h
  · rename_i key job rest hw
    exact ⟨key, job, rest, hw, (some.inj h).symm⟩
  · cases h

theorem snapshot_eq_some (h : b.snapshot ch = some m) :
    ∃ key jobs job, b.workers[ch]? = some ⟨key, jobs, .encoding job⟩ ∧
      m = b.setWorker ch ⟨key, jobs, .sending job (b.subs job.delta.key)⟩ := by
  rw [snapshot] at h
  split at h
  · rename_i key jobs job hw
    exact ⟨key, jobs, job, hw, (some.inj h).symm⟩
  · cases h

theorem send_eq_some {out : Option (Subscriber × DeltaEntry)} (h : b.send ch = some (m, out)) :
    ∃ key jobs job rest, b.workers[ch]? = some ⟨key, jobs, .sending job rest⟩ ∧
      ((rest = [] ∧ m = b.setWorker ch ⟨key, jobs, .waiting⟩ ∧ out = none) ∨
        ∃ sub tail, rest = sub :: tail ∧ m = b.setWorker ch ⟨key, jobs, .sending job tail⟩ ∧
          out = if sub.sessionID = job.senderSessionID then none else some (sub, job.delta)) := by
  rw [send] at h
  split at h
  · rename_i key jobs job hw
    rw [some.injEq, Prod.mk.injEq] at h
    exact ⟨key, jobs, job, [], hw, .inl ⟨rfl, h.1.symm, h.2.symm⟩⟩
  · rename_i key jobs job sub rest hw
    rw [some.injEq, Prod.mk.injEq] at h
    exact ⟨key, jobs, job, _, hw, .inr ⟨sub, rest, rfl, h.1.symm, h.2.symm⟩⟩
  · cases h

theorem idle_eq_some (h : b.idle ch = some m) :
    (∃ key, b.workers[ch]? = some ⟨key, [], .waiting⟩ ∧ m = b.reap ch key) ∨
    ∃ key job rest, b.workers[ch]? = some ⟨key, job :: rest, .waiting⟩ ∧ m = b := by
  rw [idle] at h
  split at h
  · rename_i key hw
    exact .inl ⟨key, hw, (some.inj h).symm⟩
  · rename_i key job rest hw
    exact .inr ⟨key, job, rest, hw, (some.inj h).symm⟩
  · cases h

theorem broadcast_cases (b : FanoutBus) (delta : DeltaEntry) (sender : String) :
    (b.broadcast delta sender).1 = b ∨
    ∃ ch w, b.keyChs delta.key = some ch ∧ b.workers[ch]? = some w ∧
      (b.broadcast delta sender).1 = b.setWorker ch { w with ch := w.ch ++ [⟨delta, sender⟩] } := by
  rw [broadcast]
  cases hch : b.keyChs delta.key with
  | none => exact .inl rfl
  | some ch =>
    dsimp only
    cases hw : b.workers[ch]? with
    | none => exact .inl rfl
    | some w =>
      dsimp only
      split_ifs
      · exact .inr ⟨ch, w, rfl, hw, rfl⟩
      · exact .inl rfl

theorem getElem?_setWorker {w v : Worker} (hw : b.workers[ch]? = some w) (i : ℕ) :
    (b.setWorker ch v).workers[i]? = if i = ch then some v else b.workers[i]? := by
  have hlt : ch < b.workers.length := (List.getElem?_eq_some_iff.mp hw).1
  rw [setWorker]
  split_ifs with hi
  · rw [hi, getElem?_set_self hlt]
  · rw [getElem?_set_ne (Ne.symm hi)]

section
variable (hb : b.Wired)
include hb

theorem Wired.setWorker {w v : Worker} (hw : b.workers[ch]? = some w)
    (hkey : v.key = w.key) (hv : v.Running) (hrun : w.Running) : (b.setWorker ch v).Wired where
  served := by
    intro key i hi
    obtain ⟨u, hu, hukey, hurun⟩ := hb.served key i hi
    rw [getElem?_setWorker hw]
    split_ifs with hich
    · rw [hich, hw, some.injEq] at hu
      exact ⟨v, rfl, hkey.trans (hu ▸ hukey), hv⟩
    · exact ⟨u, hu, hukey, hurun⟩
  listed := by
    intro i u hu hurun
    rw [getElem?_setWorker hw] at hu
    split_ifs at hu with hich
    · rw [some.injEq] at hu
      rw [hich, ← hu, hkey]
      exact hb.listed ch w hw hrun
    · exact hb.listed i u hu hurun

theorem Wired.subscribe (key : String) (sub : Subscriber) :
    (b.subscribe key sub).Wired := by
  rw [FanoutBus.subscribe]
  cases hch : b.keyChs key with
  | some => exact ⟨hb.served, hb.listed⟩
  | none =>
    have hnew : (b.workers ++ [(⟨key, [], .waiting⟩ : Worker)])[b.workers.length]? =
        some ⟨key, [], .waiting⟩ := List.getElem?_concat_length
    refine ⟨?_, ?_⟩
    · intro other ch hother
      by_cases hk : other = key
      · subst hk
        simp only [Function.update_self, Option.some.injEq] at hother
        exact ⟨_, hother ▸ hnew, rfl, WorkerStage.noConfusion⟩
      · simp only [Function.update_of_ne hk] at hother
        obtain ⟨w, hw, hkey, hrun⟩ := hb.served other ch hother
        have hlt : ch < b.workers.length := (List.getElem?_eq_some_iff.mp hw).1
        exact ⟨w, (List.getElem?_append_left hlt).trans hw, hkey, hrun⟩
    · intro ch w hw hrun
      dsimp only at hw ⊢
      by_cases hlt : ch < b.workers.length
      · rw [List.getElem?_append_left hlt] at hw
        have hlisted := hb.listed ch w hw hrun
        have hk : w.key ≠ key := by
          intro heq
          rw [heq, hch] at hlisted
          cases hlisted
        rw [Function.update_of_ne hk]
        exact hlisted
      · have hbound : ch < (b.workers ++ [(⟨key, [], .waiting⟩ : Worker)]).length :=
          (List.getElem?_eq_some_iff.mp hw).1
        rw [List.length_append, List.length_singleton] at hbound
        have heq : ch = b.workers.length := by omega
        rw [heq, hnew, Option.some.injEq] at hw
        rw [← hw, heq]
        exact Function.update_self ..

theorem Wired.subs_update (subs : String → List Subscriber) :
    ({ b with subs := subs } : FanoutBus).Wired := ⟨hb.served, hb.listed⟩

theorem Wired.reap {key : String} (hw : b.workers[ch]? = some ⟨key, [], .waiting⟩) :
    (b.reap ch key).Wired where
  served := by
    intro other i hi
    change update b.keyChs key none other = some i at hi
    by_cases hk : other = key
    · rw [hk, update_self] at hi
      cases hi
    · rw [update_of_ne hk] at hi
      obtain ⟨u, hu, hukey, hurun⟩ := hb.served other i hi
      have hne : i ≠ ch := by
        intro heq
        rw [heq, hw, some.injEq] at hu
        exact hk (hukey.symm.trans (hu ▸ rfl))
      exact ⟨u, (getElem?_setWorker hw i).trans ((if_neg hne).trans hu), hukey, hurun⟩
  listed := by
    intro i u hu hurun
    change update b.keyChs key none u.key = some i
    replace hu := (getElem?_setWorker hw i).symm.trans hu
    split_ifs at hu with hich
    · rw [some.injEq] at hu
      exact absurd (hu ▸ rfl) hurun
    · have hlisted := hb.listed i u hu hurun
      have hk : u.key ≠ key := by
        intro heq
        have hch : b.keyChs key = some ch := hb.listed ch _ hw WorkerStage.noConfusion
        rw [heq, hch, some.injEq] at hlisted
        exact hich hlisted.symm
      rw [update_of_ne hk]
      exact hlisted

theorem Wired.broadcast (delta : DeltaEntry) (sender : String) :
    (b.broadcast delta sender).1.Wired := by
  rcases broadcast_cases b delta sender with heq | ⟨ch, w, hch, hw, heq⟩
  · rw [heq]
    exact hb
  · rw [heq]
    obtain ⟨u, hu, -, hrun⟩ := hb.served _ ch hch
    rw [hw, some.injEq] at hu
    exact hb.setWorker hw rfl (hu ▸ hrun) (hu ▸ hrun)

theorem Wired.unsubscribe (key sessionID : String) (streamID : ℕ) :
    (b.unsubscribe key sessionID streamID).Wired := by
  rw [FanoutBus.unsubscribe]
  split
  · exact hb
  · exact hb.subs_update _

theorem Wired.step (hstep : b.step e = some m) : m.Wired := by
  cases e with
  | subscribe key sub => exact some.inj hstep ▸ hb.subscribe key sub
  | unsubscribe key sessionID streamID =>
    exact some.inj hstep ▸ hb.unsubscribe key sessionID streamID
  | removeSession => exact some.inj hstep ▸ hb.subs_update _
  | broadcast delta sender => exact some.inj hstep ▸ hb.broadcast delta sender
  | take =>
    obtain ⟨key, job, rest, hw, rfl⟩ := take_eq_some hstep
    exact hb.setWorker hw rfl WorkerStage.noConfusion WorkerStage.noConfusion
  | snapshot =>
    obtain ⟨key, jobs, job, hw, rfl⟩ := snapshot_eq_some hstep
    exact hb.setWorker hw rfl WorkerStage.noConfusion WorkerStage.noConfusion
  | send =>
    obtain ⟨⟨_, _⟩, hsend, rfl⟩ := map_eq_some_iff.mp hstep
    obtain ⟨key, jobs, job, rest, hw, ⟨-, rfl, -⟩ | ⟨sub, -, -, rfl, -⟩⟩ := send_eq_some hsend <;>
      exact hb.setWorker hw rfl WorkerStage.noConfusion WorkerStage.noConfusion
  | idle =>
    rcases idle_eq_some hstep with ⟨key, hw, rfl⟩ | ⟨key, job, rest, hw, rfl⟩
    · exact hb.reap hw
    · exact hb

end

/-! ### Watched keys -/

def Listening (b : FanoutBus) : Prop := ∀ key, b.subs key ≠ [] → (b.keyChs key).isSome

theorem Wired.broadcast_ne_noChannel (hb : b.Wired) {delta : DeltaEntry} {sender : String}
    (hch : (b.keyChs delta.key).isSome) : (b.broadcast delta sender).2 ≠ .noChannel := by
  obtain ⟨ch, hch⟩ := isSome_iff_exists.mp hch
  obtain ⟨w, hw, -, -⟩ := hb.served _ ch hch
  rw [FanoutBus.broadcast, hch]
  dsimp only
  rw [hw]
  dsimp only
  split_ifs <;> exact BroadcastResult.noConfusion

theorem Wired.served_iff (hb : b.Wired) : b.Served ↔ b.Listening := by
  constructor
  · intro h key hsubs
    obtain ⟨⟨ch, w, hch, -⟩, -⟩ := h key hsubs
    rw [hch]
    rfl
  · intro h key hsubs
    obtain ⟨ch, hch⟩ := isSome_iff_exists.mp (h key hsubs)
    obtain ⟨w, hw, hkey, hrun⟩ := hb.served key ch hch
    refine ⟨⟨ch, w, hch, hw, hkey, hrun⟩, ?_⟩
    intro delta sender hdelta
    exact hb.broadcast_ne_noChannel (by rw [hdelta, hch]; rfl)

theorem swapRemove_nil {α : Type*} (i : ℕ) : swapRemove ([] : List α) i = [] := rfl

theorem Listening.subscribe (hb : b.Listening) (key : String) (sub : Subscriber) :
    (b.subscribe key sub).Listening := by
  intro other hsubs
  rw [FanoutBus.subscribe] at hsubs ⊢
  cases hch : b.keyChs key with
  | some =>
    simp only [hch] at hsubs ⊢
    by_cases hk : other = key
    · rw [hk, hch]
      rfl
    · rw [update_of_ne hk] at hsubs
      exact hb other hsubs
  | none =>
    simp only [hch] at hsubs ⊢
    by_cases hk : other = key
    · rw [hk, update_self]
      rfl
    · rw [update_of_ne hk] at hsubs ⊢
      exact hb other hsubs

theorem Listening.unsubscribe (hb : b.Listening) (key sessionID : String) (streamID : ℕ) :
    (b.unsubscribe key sessionID streamID).Listening := by
  rw [FanoutBus.unsubscribe]
  split
  · exact hb
  · intro other hsubs
    dsimp only at hsubs ⊢
    by_cases hk : other = key
    · subst hk
      refine hb other fun hnil => hsubs ?_
      rw [update_self, hnil, swapRemove_nil]
    · rw [update_of_ne hk] at hsubs
      exact hb other hsubs

theorem Listening.removeSession (hb : b.Listening) (sessionID : String) :
    (b.removeSession sessionID).Listening := by
  intro key hsubs
  refine hb key fun hnil => hsubs ?_
  change (b.subs key).filter _ = []
  rw [hnil]
  rfl

theorem Listening.step (hb : b.Listening) (he : b.Unwatched e) (hstep : b.step e = some m) :
    m.Listening := by
  cases e with
  | subscribe key sub => exact some.inj hstep ▸ hb.subscribe key sub
  | unsubscribe key sessionID streamID =>
    exact some.inj hstep ▸ hb.unsubscribe key sessionID streamID
  | removeSession sessionID => exact some.inj hstep ▸ hb.removeSession sessionID
  | broadcast delta sender =>
    rw [← some.inj hstep]
    rcases broadcast_cases b delta sender with heq | ⟨_, w, -, -, heq⟩
    · rw [heq]
      exact hb
    · rw [heq]
      exact hb
  | take =>
    obtain ⟨key, job, rest, hw, rfl⟩ := take_eq_some hstep
    exact hb
  | snapshot =>
    obtain ⟨key, jobs, job, hw, rfl⟩ := snapshot_eq_some hstep
    exact hb
  | send =>
    obtain ⟨⟨_, _⟩, hsend, rfl⟩ := map_eq_some_iff.mp hstep
    obtain ⟨key, jobs, job, rest, hw, ⟨-, rfl, -⟩ | ⟨sub, -, -, rfl, -⟩⟩ := send_eq_some hsend <;>
      exact hb
  | idle =>
    rcases idle_eq_some hstep with ⟨key, hw, rfl⟩ | ⟨key, job, rest, hw, rfl⟩
    · intro other hsubs
      have hk : other ≠ key := by
        intro heq
        exact hsubs (heq ▸ he _ hw rfl)
      change (update b.keyChs key none other).isSome
      rw [update_of_ne hk]
      exact hb other hsubs
    · exact hb

theorem unwatched_of_listening (hstep : b.step e = some m) (hm : m.Listening) : b.Unwatched e := by
  cases e with
  | idle =>
    intro w hw hempty
    rcases idle_eq_some hstep with ⟨key, hkey, rfl⟩ | ⟨key, job, rest, hbusy, rfl⟩
    · have hweq : w = ⟨key, [], .waiting⟩ := some.inj (hw.symm.trans hkey)
      by_contra hsubs
      have hsome : (update b.keyChs key none key).isSome :=
        hm key (by rw [hweq] at hsubs; exact hsubs)
      rw [update_self] at hsome
      cases hsome
    · have hweq : w = ⟨key, job :: rest, .waiting⟩ := some.inj (hw.symm.trans hbusy)
      rw [hweq] at hempty
      cases hempty
  | _ => trivial

end Steps

theorem wired_new : new.Wired where
  served := by
    intro key ch hch
    cases hch
  listed := by
    intro ch w hw
    cases hw

theorem listening_new : new.Listening := by
  intro key hsubs
  exact absurd rfl hsubs

theorem along_unwatched {b final : FanoutBus} {events : List BusEvent}
    (hrun : run step b events = some final)
    (hlisten : ∀ before after m, events = before ++ after → run step b before = some m →
      m.Listening) : Along step Unwatched b events := by
  induction events generalizing b with
  | nil => trivial
  | cons e events ih =>
    obtain ⟨m, hm, hrest⟩ := run_cons_eq_some.mp hrun
    have hone : run step b [e] = some m := run_cons_eq_some.mpr ⟨m, hm, run_nil m⟩
    refine ⟨unwatched_of_listening hm (hlisten [e] events m rfl hone), ?_⟩
    rw [hm]
    refine ih hrest ?_
    intro before after n heq hn
    exact hlisten (e :: before) after n (by rw [heq, cons_append])
      (run_cons_eq_some.mpr ⟨m, hm, hn⟩)

/-- In every run, every watched key is served at every point exactly if no worker goes idle on a
watched key. -/
theorem watched_key_served_iff {events : List BusEvent} {final : FanoutBus}
    (hrun : run step new events = some final) :
    (∀ before after b, events = before ++ after → run step new before = some b → b.Served) ↔
      Along step Unwatched new events := by
  have hwired : ∀ before b, run step new before = some b → b.Wired := by
    intro before b hb
    exact invariant (fun _ _ _ hb hstep => hb.step hstep) wired_new hb
  constructor
  · intro h
    refine along_unwatched hrun ?_
    intro before after m heq hm
    exact (hwired before m hm).served_iff.mp (h before after m heq hm)
  · intro h before after b heq hb
    rw [heq] at h
    refine (hwired before b hb).served_iff.mpr ?_
    exact invariant_along (fun _ _ _ hI hok hstep => hI.step hok hstep) listening_new
      (h.append hb).1 hb

instance (b : FanoutBus) (e : BusEvent) : Decidable (b.Unwatched e) := by
  unfold Unwatched
  split <;> infer_instance

def watchK : BusEvent := .subscribe "k" ⟨"s", 10⟩

def updateK : DeltaEntry := ⟨"k", 1, [⟨.update, "/", .string "a"⟩]⟩

def watchedTwice : List BusEvent :=
  [watchK, .broadcast updateK "t", .take 0, .snapshot 0, .send 0, .send 0, .unsubscribe "k" "s" 10,
    .idle 0, watchK]

theorem watched_twice_served : ∃ b, run step new watchedTwice = some b ∧ b.Served := by
  refine ⟨_, rfl, ?_⟩
  exact (watched_key_served_iff rfl).mpr (by decide +kernel : Along step Unwatched new watchedTwice)
    watchedTwice [] _ (append_nil _).symm rfl

/-- Five idle minutes while a session watches the key: the next delta finds no channel. -/
theorem idle_watch_is_dropped :
    (run step new [watchK, .idle 0]).map (fun b => (b.subs "k", (b.broadcast updateK "t").2)) =
      some ([⟨"s", 10⟩], .noChannel) := by
  decide +kernel

end FanoutBus

end Sodp.GoServer
