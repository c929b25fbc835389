import Sodp.GoHandlers

/-!
# Runs of the Go server

Sessions, the host program and the workers of the fanout bus take their steps in any order, and a
handler runs to its end before the next one starts. A session that has disconnected stays in the
table with `done` set, because a worker may still hold its channel. `Sane` is what every run keeps
whatever the clients do.
-/

namespace Sodp.GoServer
open Transition Function List

inductive ServerEvent where
  | connect (id : String)
  | disconnect (id : String)
  | frame (id : String) (ch : Choices) (f : Frame)
  | mutate (m : Mutation)
  | take (worker : ℕ)
  | snapshot (worker : ℕ)
  | send (worker : ℕ)
  | idle (worker : ℕ)
  | write (id : String)

structure Server extends Node where
  sessions : OrderedMap String Session

/-- No authentication, no authorizer, and the limits that the server has by default. -/
def Options.plain : Options := ⟨false, none, none, 4096, 100, 64, 128⟩

namespace Server

def new (opts : Options) : Server := ⟨⟨opts, .new, .new⟩, .empty⟩

def put (srv : Server) (sess : Session) : Server :=
  { srv with sessions := srv.sessions.insert sess.id sess }

def liveSessions (srv : Server) : List String :=
  srv.sessions.keys.filter fun id => (srv.sessions.get? id).any fun sess => ! sess.done

def connect (srv : Server) (id : String) : Option Server :=
  match srv.sessions.get? id with
  | some _ => none
  | none =>
    if srv.opts.maxSessions ≤ srv.liveSessions.length then none
    else some (srv.put
      (.new id srv.opts.maxWatches srv.opts.rateLimit srv.opts.backpressure))

def live? (srv : Server) (id : String) : Option Session :=
  (srv.sessions.get? id).filter fun sess => ! sess.done

def disconnect (srv : Server) (id : String) : Option Server :=
  (srv.live? id).map fun sess =>
    { srv with fanout := srv.fanout.removeSession id }.put { sess with done := true }

def frame (srv : Server) (id : String) (ch : Choices) (f : Frame) : Option Server :=
  (srv.live? id).map fun sess =>
    let d := dispatch ch (srv.toNode, sess) f
    { srv with toNode := d.1 }.put d.2

def mutate (srv : Server) (m : Mutation) : Server :=
  { srv with toNode := srv.toNode.commit m "" }

def send (srv : Server) (worker : ℕ) : Option Server :=
  match srv.fanout.send worker with
  | none => none
  | some (bus, none) => some { srv with fanout := bus }
  | some (bus, some (sub, delta)) =>
    match srv.sessions.get? sub.sessionID with
    | none => none
    | some sess => some ({ srv with fanout := bus }.put (sess.post (.delta sub.streamID delta)))

def write (srv : Server) (id : String) : Option Server :=
  ((srv.sessions.get? id).bind Session.write).map srv.put

def step (srv : Server) : ServerEvent → Option Server
  | .connect id => srv.connect id
  | .disconnect id => srv.disconnect id
  | .frame id ch f => srv.frame id ch f
  | .mutate m => some (srv.mutate m)
  | .take worker => (srv.fanout.take worker).map fun bus => { srv with fanout := bus }
  | .snapshot worker => (srv.fanout.snapshot worker).map fun bus => { srv with fanout := bus }
  | .send worker => srv.send worker
  | .idle worker => (srv.fanout.idle worker).map fun bus => { srv with fanout := bus }
  | .write id => srv.write id

end Server

/-! ### What every run keeps -/

def Worker.jobs (w : Worker) : List FanoutJob :=
  match w.stage with
  | .encoding job | .sending job _ => job :: w.ch
  | _ => w.ch

def Worker.ahead (w : Worker) : List Subscriber :=
  match w.stage with
  | .sending _ rest => rest
  | _ => []

structure FanoutBus.Sane (b : FanoutBus) (known : String → Prop) : Prop where
  wired : b.Wired
  subs_known : ∀ key, ∀ sub ∈ b.subs key, known sub.sessionID
  ahead_known : ∀ w ∈ b.workers, ∀ sub ∈ w.ahead, known sub.sessionID
  keyed : ∀ w ∈ b.workers, ∀ job ∈ w.jobs, job.delta.key = w.key
  returned : ∀ w ∈ b.workers, w.stage = .returned → w.ch = []

namespace FanoutBus
section Sane
variable {b : FanoutBus} {known : String → Prop}

variable {ch : ℕ} {w : Worker} {sub : Subscriber} {m : FanoutBus}

theorem mem_workers_setWorker {v : Worker} (h : w ∈ (b.setWorker ch v).workers) :
    w = v ∨ w ∈ b.workers := (mem_or_eq_of_mem_set h).symm

theorem Sane.setWorker {v : Worker} (hb : b.Sane known) (hw : b.workers[ch]? = some w)
    (hkey : v.key = w.key) (hv : v.Running) (hrun : w.Running)
    (hahead : ∀ sub ∈ v.ahead, known sub.sessionID)
    (hjobs : ∀ job ∈ v.jobs, job.delta.key = w.key) :
    (b.setWorker ch v).Sane known where
  wired := hb.wired.setWorker hw hkey hv hrun
  subs_known := hb.subs_known
  ahead_known := by
    intro u hu
    rcases mem_workers_setWorker hu with rfl | hu
    · exact hahead
    · exact hb.ahead_known u hu
  keyed := by
    intro u hu
    rcases mem_workers_setWorker hu with rfl | hu
    · exact hkey ▸ hjobs
    · exact hb.keyed u hu
  returned := by
    intro u hu hstage
    rcases mem_workers_setWorker hu with rfl | hu
    · exact absurd hstage hv
    · exact hb.returned u hu hstage

theorem mem_swapRemove {α : Type*} {l : List α} {i : ℕ} {x : α} (h : x ∈ swapRemove l i) :
    x ∈ l := by
  rw [swapRemove] at h
  cases hlast : l.getLast? with
  | none => rwa [hlast] at h
  | some =>
    rw [hlast] at h
    rcases mem_or_eq_of_mem_set (mem_of_mem_dropLast h) with h | rfl
    · exact h
    · exact mem_of_getLast? hlast

theorem cons_swapRemove_perm {α : Type*} {l : List α} {i : ℕ} {a : α} (h : l[i]? = some a) :
    (a :: swapRemove l i).Perm l := by
  obtain ⟨hi, rfl⟩ := List.getElem?_eq_some_iff.mp h
  have hne : l ≠ [] := List.ne_nil_of_length_pos (Nat.zero_lt_of_lt hi)
  rw [swapRemove, List.getLast?_eq_some_getLast hne]
  -- the overwritten list still ends in the last element
  have hset : (l.set i (l.getLast hne)).dropLast ++ [l.getLast hne] = l.set i (l.getLast hne) := by
    have hne' : l.set i (l.getLast hne) ≠ [] := by
      rwa [ne_eq, List.set_eq_nil_iff]
    have hlast : (l.set i (l.getLast hne)).getLast hne' = l.getLast hne := by
      rw [List.getLast_eq_getElem, List.getElem_set]
      split_ifs
      · rfl
      · simp only [List.length_set]
        exact (List.getLast_eq_getElem hne).symm
    have := List.dropLast_append_getLast hne'
    rwa [hlast] at this
  have hperm : (l.getLast hne :: (l.set i (l.getLast hne)).dropLast).Perm
      (l.getLast hne :: l.eraseIdx i) := by
    refine (List.perm_append_singleton _ _).symm.trans ?_
    rw [hset]
    exact List.set_perm_cons_eraseIdx hi _
  exact ((List.perm_cons _).mp hperm).cons _ |>.trans (List.getElem_cons_eraseIdx_perm hi)

theorem mem_subs_unsubscribe {key k sessionID : String} {streamID : ℕ}
    (h : sub ∈ (b.unsubscribe key sessionID streamID).subs k) : sub ∈ b.subs k := by
  rw [unsubscribe] at h
  split at h
  · exact h
  · dsimp only at h
    by_cases hk : k = key
    · subst hk
      rw [update_self] at h
      exact mem_swapRemove h
    · rwa [update_of_ne hk] at h

theorem workers_unsubscribe (b : FanoutBus) (key sessionID : String) (streamID : ℕ) :
    (b.unsubscribe key sessionID streamID).workers = b.workers := by
  rw [unsubscribe]
  split <;> rfl

theorem subs_subscribe (key k : String) (sub : Subscriber) :
    (b.subscribe key sub).subs k = if k = key then b.subs key ++ [sub] else b.subs k := by
  have hsubs : (b.subscribe key sub).subs = update b.subs key (b.subs key ++ [sub]) := by
    rw [subscribe]
    cases b.keyChs key with
    | none | some ch => rfl
  rw [hsubs]
  split_ifs with hk
  · rw [hk, update_self]
  · rw [update_of_ne hk]

theorem mem_workers_subscribe {key : String} (h : w ∈ (b.subscribe key sub).workers) :
    w = ⟨key, [], .waiting⟩ ∨ w ∈ b.workers := by
  rw [subscribe] at h
  cases hch : b.keyChs key with
  | some =>
    rw [hch] at h
    exact .inr h
  | none =>
    rw [hch] at h
    rcases mem_append.mp h with h | h
    · exact .inr h
    · exact .inl (mem_singleton.mp h)

theorem subs_broadcast (b : FanoutBus) (delta : DeltaEntry) (sender : String) :
    (b.broadcast delta sender).1.subs = b.subs := by
  rcases broadcast_cases b delta sender with h | ⟨_, w, -, -, h⟩
  · rw [h]
  · rw [h]
    rfl

section
variable (hb : b.Sane known)
include hb

theorem Sane.broadcast (delta : DeltaEntry) (sender : String) :
    (b.broadcast delta sender).1.Sane known := by
  rcases broadcast_cases b delta sender with heq | ⟨ch, w, hch, hw, heq⟩
  · rw [heq]
    exact hb
  · rw [heq]
    obtain ⟨u, hu, hkey, hrun⟩ := hb.wired.served _ ch hch
    rw [hw] at hu
    cases hu
    have hmem : w ∈ b.workers := mem_of_getElem? hw
    refine hb.setWorker hw rfl hrun hrun (hb.ahead_known w hmem) ?_
    intro job hjob
    have hjobs : job ∈ w.jobs ∨ job = ⟨delta, sender⟩ := by
      obtain ⟨_, _, stage⟩ := w
      cases stage with
      | waiting | returned => simpa [Worker.jobs] using hjob
      | encoding j | sending j rest => simpa [Worker.jobs, or_assoc] using hjob
    rcases hjobs with hold | rfl
    · exact hb.keyed w hmem job hold
    · exact hkey.symm

theorem Sane.subscribe (key : String) (hsub : known sub.sessionID) :
    (b.subscribe key sub).Sane known where
  wired := hb.wired.subscribe key sub
  subs_known := by
    intro k s hs
    rw [subs_subscribe] at hs
    split_ifs at hs
    · rcases mem_append.mp hs with hs | hs
      · exact hb.subs_known key s hs
      · exact mem_singleton.mp hs ▸ hsub
    · exact hb.subs_known k s hs
  ahead_known := by
    intro w hw
    rcases mem_workers_subscribe hw with rfl | hw
    · exact fun sub hsub => absurd hsub not_mem_nil
    · exact hb.ahead_known w hw
  keyed := by
    intro w hw
    rcases mem_workers_subscribe hw with rfl | hw
    · exact fun job hjob => absurd hjob not_mem_nil
    · exact hb.keyed w hw
  returned := by
    intro w hw hstage
    rcases mem_workers_subscribe hw with rfl | hw
    · rfl
    · exact hb.returned w hw hstage

theorem Sane.unsubscribe (key sessionID : String) (streamID : ℕ) :
    (b.unsubscribe key sessionID streamID).Sane known := by
  have hworkers := workers_unsubscribe b key sessionID streamID
  refine ⟨hb.wired.unsubscribe key sessionID streamID, ?_, ?_, ?_, ?_⟩
  · intro k sub hsub
    exact hb.subs_known k sub (mem_subs_unsubscribe hsub)
  · rw [hworkers]
    exact hb.ahead_known
  · rw [hworkers]
    exact hb.keyed
  · rw [hworkers]
    exact hb.returned

theorem Sane.removeSession (sessionID : String) :
    (b.removeSession sessionID).Sane known where
  wired := hb.wired.subs_update _
  subs_known := fun key sub hsub => hb.subs_known key sub (mem_filter.mp hsub).1
  ahead_known := hb.ahead_known
  keyed := hb.keyed
  returned := hb.returned

theorem Sane.take (h : b.take ch = some m) : m.Sane known := by
  obtain ⟨_, _, _, hw, rfl⟩ := take_eq_some h
  have hmem := mem_of_getElem? hw
  exact hb.setWorker hw rfl WorkerStage.noConfusion WorkerStage.noConfusion
    (fun sub hsub => absurd hsub not_mem_nil) fun j hj => hb.keyed _ hmem j hj

theorem Sane.snapshot (h : b.snapshot ch = some m) : m.Sane known := by
  obtain ⟨_, _, _, hw, rfl⟩ := snapshot_eq_some h
  have hmem := mem_of_getElem? hw
  exact hb.setWorker hw rfl WorkerStage.noConfusion WorkerStage.noConfusion
    (fun sub hsub => hb.subs_known _ sub hsub) fun j hj => hb.keyed _ hmem j hj

theorem Sane.send {out : Option (Subscriber × DeltaEntry)}
    (h : b.send ch = some (m, out)) : m.Sane known := by
  obtain ⟨_, _, job, -, hw, ⟨rfl, rfl, -⟩ | ⟨sub, _, rfl, rfl, -⟩⟩ := send_eq_some h
  · have hmem := mem_of_getElem? hw
    exact hb.setWorker hw rfl WorkerStage.noConfusion WorkerStage.noConfusion
      (fun sub hsub => absurd hsub not_mem_nil)
      (fun j hj => hb.keyed _ hmem j (mem_cons_of_mem job hj))
  · have hmem := mem_of_getElem? hw
    exact hb.setWorker hw rfl WorkerStage.noConfusion WorkerStage.noConfusion
      (fun s hs => hb.ahead_known _ hmem s (mem_cons_of_mem sub hs))
      fun j hj => hb.keyed _ hmem j hj

theorem Sane.idle (h : b.idle ch = some m) : m.Sane known := by
  rcases idle_eq_some h with ⟨key, hw, rfl⟩ | ⟨key, job, -, hw, rfl⟩
  · refine ⟨hb.wired.reap hw, hb.subs_known, ?_, ?_, ?_⟩
    · intro w hmem
      rcases mem_workers_setWorker hmem with rfl | hmem
      · exact fun sub hsub => absurd hsub not_mem_nil
      · exact hb.ahead_known w hmem
    · intro w hmem
      rcases mem_workers_setWorker hmem with rfl | hmem
      · exact fun job hjob => absurd hjob not_mem_nil
      · exact hb.keyed w hmem
    · intro w hmem hstage
      rcases mem_workers_setWorker hmem with rfl | hmem
      · rfl
      · exact hb.returned w hmem hstage
  · exact hb

theorem Sane.mono {known' : String → Prop} (h : ∀ id, known id → known' id) :
    b.Sane known' where
  wired := hb.wired
  subs_known := fun key sub hsub => h _ (hb.subs_known key sub hsub)
  ahead_known := fun w hw sub hsub => h _ (hb.ahead_known w hw sub hsub)
  keyed := hb.keyed
  returned := hb.returned

end

theorem sane_new (known : String → Prop) : new.Sane known where
  wired := wired_new
  subs_known := fun _ _ hsub => absurd hsub not_mem_nil
  ahead_known := fun _ hw => absurd hw not_mem_nil
  keyed := fun _ hw => absurd hw not_mem_nil
  returned := fun _ hw => absurd hw not_mem_nil

end Sane
end FanoutBus

/-! ### The store -/

def StateStore.Filed (s : StateStore) : Prop := ∀ key, ∀ e ∈ (s.ring key).entries, e.key = key

theorem StateStore.Filed.run {s : StateStore} (hs : s.Filed) (m : Mutation) :
    (m.run s).1.Filed := by
  rcases m.run_cases s with heq | ⟨_, _, heq⟩
  · rw [heq]
    exact hs
  · rw [heq]
    intro key e he
    simp only [StateStore.record] at he
    rw [StateStore.ring_appendDelta] at he
    split_ifs at he with hk
    · subst hk
      rw [RingLog.entries_push] at he
      rcases mem_append.mp he with he | he
      · refine hs _ e ?_
        split_ifs at he
        · exact he
        · exact mem_of_mem_tail he
      · rw [mem_singleton.mp he]
    · exact hs key e he

/-! ### The shared parts -/

structure Node.Sane (n : Node) (known : String → Prop) : Prop where
  bus : n.fanout.Sane known
  filed : n.state.Filed

theorem Node.opts_commit (n : Node) (m : Mutation) (sender : String) :
    (n.commit m sender).opts = n.opts := by
  rw [Node.commit]
  split <;> rfl

theorem Node.subs_commit (n : Node) (m : Mutation) (sender : String) :
    (n.commit m sender).fanout.subs = n.fanout.subs := by
  rw [Node.commit]
  split
  · rfl
  · exact FanoutBus.subs_broadcast _ _ _

theorem Node.commit_cases (n : Node) (m : Mutation) (sender : String) :
    ((m.run n.state).2 = none ∧ n.commit m sender = n) ∨
      ∃ state delta, m.run n.state = (state, some delta) ∧ delta.key = m.key ∧
        delta.version = n.state.nextVersion ∧ state.global = n.state.nextVersion ∧
        n.commit m sender =
          { n with state := state, fanout := (n.fanout.broadcast delta sender).1 } := by
  rw [Node.commit]
  rcases m.run_cases n.state with heq | ⟨_, _, heq⟩
  · rw [heq]
    exact .inl ⟨rfl, rfl⟩
  · rw [heq]
    exact .inr ⟨_, _, rfl, rfl, rfl, rfl, rfl⟩

variable {known : String → Prop} {n : Node}

theorem Node.Sane.commit (hn : n.Sane known) (m : Mutation) (sender : String) :
    (n.commit m sender).Sane known := by
  rw [Node.commit]
  split
  · exact ⟨hn.bus, hn.filed.run m⟩
  · exact ⟨hn.bus.broadcast _ sender, hn.filed.run m⟩

theorem sendDeltaDirect_eq (sess : Session) (range : KeyOrder ℕ) (delta : DeltaEntry) :
    ∃ queue, sendDeltaDirect sess range delta = { sess with queue := queue } := by
  rw [sendDeltaDirect]
  split_ifs
  · exact ⟨_, rfl⟩
  · exact ⟨_, Session.post_eq _ _⟩

theorem session_change (c : Conn) (m : Mutation) (f : Frame) (callID : GoValue)
    (range : KeyOrder ℕ) :
    ∃ queue, (change c m f callID range).2 = { c.2 with queue := queue } := by
  rw [change]
  split
  · exact ⟨_, Session.post_eq _ _⟩
  · obtain ⟨queue, hq⟩ := sendDeltaDirect_eq
      (c.2.post (.result f.streamID f.seq callID ((m.run c.1.state).2.map DeltaEntry.version)))
        range _
    rw [hq, Session.post_eq]
    exact ⟨queue, rfl⟩

theorem Act.opts_run (c : Conn) (act : Act) : (act.run c).1.opts = c.1.opts := by
  cases act with
  | change m => exact Node.opts_commit _ m _
  | _ => rfl

theorem opts_dispatch (ch : Choices) (c : Conn) (f : Frame) :
    (dispatch ch c f).1.opts = c.1.opts := by
  obtain ⟨_, hacts, -⟩ := dispatch_acts ch c f
  exact hacts.invariant (I := fun d => d.1.opts = c.1.opts)
    (fun d act hd _ => (act.opts_run d).trans hd) rfl

theorem Act.session_run (c : Conn) (act : Act) :
    (act.run c).2.id = c.2.id ∧ (act.run c).2.done = c.2.done := by
  have hpost : ∀ msg, (c.2.post msg).id = c.2.id ∧ (c.2.post msg).done = c.2.done := by
    intro msg
    rw [Session.post_eq]
    exact ⟨rfl, rfl⟩
  cases act with
  | say msg => exact hpost msg
  | watch fresh =>
    cases fresh with
    | false => exact ⟨rfl, rfl⟩
    | true => exact ⟨rfl, rfl⟩
  | init streamID key params | replay streamID entry => exact hpost _
  | change m f callID range =>
    obtain ⟨_, hq⟩ := session_change c m f callID range
    change (GoServer.change c m f callID range).2.id = _ ∧
      (GoServer.change c m f callID range).2.done = _
    rw [hq]
    exact ⟨rfl, rfl⟩
  | _ => exact ⟨rfl, rfl⟩

theorem Node.Sane.act {c : Conn} (h : c.1.Sane known) (hknown : known c.2.id) (act : Act) :
    (act.run c).1.Sane known := by
  cases act with
  | watch fresh streamID key =>
    cases fresh with
    | false | true => exact ⟨h.bus.subscribe key hknown, h.filed⟩
  | unwatch streamID key => exact ⟨h.bus.unsubscribe key _ _, h.filed⟩
  | change m => exact h.commit m _
  | _ => exact h

structure Conn.Keeps (c d : Conn) (known : String → Prop) : Prop where
  id : d.2.id = c.2.id
  done : d.2.done = c.2.done
  opts : d.1.opts = c.1.opts
  sane : d.1.Sane known

theorem Act.keeps {c d : Conn} (act : Act) (h : Conn.Keeps c d known) (hknown : known c.2.id) :
    Conn.Keeps c (act.run d) known where
  id := (act.session_run d).1.trans h.id
  done := (act.session_run d).2.trans h.done
  opts := (act.opts_run d).trans h.opts
  sane := h.sane.act (h.id ▸ hknown) act

/-! ### Invariants of sessions -/

namespace Server

def Known (srv : Server) (id : String) : Prop := (srv.sessions.get? id).isSome

structure Sane (srv : Server) : Prop where
  ids : ∀ id sess, srv.sessions.get? id = some sess → sess.id = id
  node : srv.toNode.Sane srv.Known

def Holds (J : Node → Session → Prop) (srv : Server) : Prop :=
  ∀ id sess, srv.sessions.get? id = some sess → J srv.toNode sess

section Put
variable {srv : Server} {sess : Session}

theorem get?_put (id : String) :
    (srv.put sess).sessions.get? id = if id = sess.id then some sess else srv.sessions.get? id :=
  OrderedMap.get?_insert _ _ _ _

theorem Holds.put {J : Node → Session → Prop} (hsess : J srv.toNode sess)
    (hother : ∀ id t, srv.sessions.get? id = some t → id ≠ sess.id → J srv.toNode t) :
    (srv.put sess).Holds J := by
  intro id t ht
  rw [get?_put] at ht
  split_ifs at ht with hid
  · exact Option.some.inj ht ▸ hsess
  · exact hother id t ht hid

theorem Known.put {id : String} (h : srv.Known id) : (srv.put sess).Known id := by
  rw [Known, get?_put]
  split_ifs
  · rfl
  · exact h

theorem Sane.put (hids : ∀ id t, srv.sessions.get? id = some t → t.id = id)
    (hnode : srv.toNode.Sane srv.Known) : (srv.put sess).Sane where
  ids := by
    intro id t ht
    rw [get?_put] at ht
    split_ifs at ht with hid
    · rw [hid, Option.some.inj ht]
    · exact hids id t ht
  node := ⟨hnode.bus.mono fun _ h => h.put, hnode.filed⟩

end Put

theorem live?_eq_some {srv : Server} {id : String} {sess : Session} (h : srv.live? id = some sess) :
    srv.sessions.get? id = some sess ∧ sess.done = false := by
  rw [live?, Option.filter_eq_some_iff] at h
  exact ⟨h.1, by simpa using h.2⟩

def received (out : Option (Subscriber × DeltaEntry)) (sess : Session) : Session :=
  match out with
  | none => sess
  | some (sub, delta) =>
    if sub.sessionID = sess.id then sess.post (.delta sub.streamID delta) else sess

theorem received_eq (out : Option (Subscriber × DeltaEntry)) (sess : Session) :
    ∃ queue, received out sess = { sess with queue := queue } := by
  cases out with
  | none => exact ⟨_, rfl⟩
  | some =>
    rw [received]
    split_ifs
    · exact ⟨_, Session.post_eq _ _⟩
    · exact ⟨_, rfl⟩

def BusMove (n : Node) (bus : FanoutBus) : Prop :=
  (∃ id, bus = n.fanout.removeSession id) ∨ ∃ w, n.fanout.take w = some bus ∨
    n.fanout.snapshot w = some bus ∨ (∃ out, n.fanout.send w = some (bus, out)) ∨
    n.fanout.idle w = some bus

/-- A property of the shared parts that every step keeps whose acts and commits meet a
condition. -/
structure NodeRule (N : Node → Prop) (ok : Conn → Act → Prop)
    (okCommit : Node → Mutation → Prop) : Prop where
  init : ∀ opts, N ⟨opts, .new, .new⟩
  act : ∀ (c : Conn) (act : Act), ok c act → N c.1 → N (act.run c).1
  commit : ∀ n m, okCommit n m → N n → N (n.commit m "")
  bus : ∀ n bus, BusMove n bus → N n → N { n with fanout := bus }

theorem NodeRule.true (ok : Conn → Act → Prop) (okCommit : Node → Mutation → Prop) :
    NodeRule (fun _ => True) ok okCommit :=
  ⟨fun _ => trivial, fun _ _ _ _ => trivial, fun _ _ _ _ => trivial, fun _ _ _ _ => trivial⟩

structure Rule (N : Node → Prop) (J : Node → Session → Prop) (ok : Conn → Act → Prop)
    (okCommit : Node → Mutation → Prop) : Prop where
  node : NodeRule N ok okCommit
  new : ∀ n known id, n.Sane known → N n → ¬ known id →
    J n (.new id n.opts.maxWatches n.opts.rateLimit n.opts.backpressure)
  act : ∀ (c : Conn) (act : Act) known, c.1.Sane known → act.Allowed c → ok c act → J c.1 c.2 →
    J (act.run c).1 (act.run c).2
  act_other : ∀ (c : Conn) (act : Act) known t, c.1.Sane known → act.Allowed c → ok c act →
    t.id ≠ c.2.id → J c.1 t → J (act.run c).1 t
  commit : ∀ n m known t, n.Sane known → okCommit n m → J n t → J (n.commit m "") t
  remove : ∀ n t id, t.id ≠ id → J n t → J { n with fanout := n.fanout.removeSession id } t
  close : ∀ n t, J n t → J { n with fanout := n.fanout.removeSession t.id } { t with done := true }
  take : ∀ n known w bus t, n.Sane known → n.fanout.take w = some bus → J n t →
    J { n with fanout := bus } t
  snapshot : ∀ n known w bus t, n.Sane known → n.fanout.snapshot w = some bus → J n t →
    J { n with fanout := bus } t
  send : ∀ n known w bus out t, n.Sane known → n.fanout.send w = some (bus, out) → J n t →
    J { n with fanout := bus } (received out t)
  idle : ∀ n known w bus t, n.Sane known → n.fanout.idle w = some bus → J n t →
    J { n with fanout := bus } t
  write : ∀ n t u, t.write = some u → J n t → J n u

def Meets (ok : Conn → Act → Prop) (okCommit : Node → Mutation → Prop) (srv : Server) :
    ServerEvent → Prop
  | .frame id ch f => ∀ sess ∈ srv.live? id, ∃ acts,
      Acts (srv.toNode, sess) acts (dispatch ch (srv.toNode, sess) f) ∧
        Along Act.step ok (srv.toNode, sess) acts
  | .mutate m => okCommit srv.toNode m
  | _ => True

section Rule
variable {N : Node → Prop} {J : Node → Session → Prop} {ok : Conn → Act → Prop}
  {okCommit : Node → Mutation → Prop} {srv : Server}

structure Invariant (N : Node → Prop) (J : Node → Session → Prop) (srv : Server) : Prop where
  sane : srv.Sane
  node : N srv.toNode
  holds : srv.Holds J

theorem Invariant.put {sess : Session} (hsrv : srv.Invariant N J) (hn : n.Sane srv.Known)
    (hN : N n) (hsess : J n sess)
    (hother : ∀ id t, srv.sessions.get? id = some t → id ≠ sess.id → J n t) :
    (({ srv with toNode := n } : Server).put sess).Invariant N J where
  sane := Sane.put hsrv.sane.ids hn
  node := hN
  holds := Holds.put hsess hother

theorem Invariant.of_node (hsrv : srv.Invariant N J) (hn : n.Sane srv.Known) (hN : N n)
    (hJ : ∀ t, J srv.toNode t → J n t) : ({ srv with toNode := n } : Server).Invariant N J where
  sane := ⟨hsrv.sane.ids, hn⟩
  node := hN
  holds := fun id t ht => hJ t (hsrv.holds id t ht)

variable {next : Server} {id : String}

theorem Invariant.connect (hsrv : srv.Invariant N J) (hrule : Rule N J ok okCommit)
    (h : srv.connect id = some next) : next.Invariant N J := by
  rw [Server.connect] at h
  cases hget : srv.sessions.get? id with
  | some =>
    rw [hget] at h
    cases h
  | none =>
    rw [hget] at h
    split_ifs at h
    rw [Option.some.injEq] at h
    rw [← h]
    have hunknown : ¬ srv.Known id := by
      rw [Known, hget]
      exact Bool.false_ne_true
    exact hsrv.put hsrv.sane.node hsrv.node (hrule.new _ _ id hsrv.sane.node hsrv.node hunknown)
      fun id t ht _ => hsrv.holds id t ht

theorem Invariant.disconnect (hsrv : srv.Invariant N J) (hrule : Rule N J ok okCommit)
    (h : srv.disconnect id = some next) : next.Invariant N J := by
  obtain ⟨sess, hlive, rfl⟩ := Option.map_eq_some_iff.mp h
  obtain ⟨hget, -⟩ := live?_eq_some hlive
  obtain rfl := hsrv.sane.ids id sess hget
  refine hsrv.put ⟨hsrv.sane.node.bus.removeSession _, hsrv.sane.node.filed⟩
    (hrule.node.bus _ _ (.inl ⟨_, rfl⟩) hsrv.node)
    (hrule.close _ sess (hsrv.holds _ sess hget)) ?_
  intro id t ht hid
  exact hrule.remove _ t _ (hsrv.sane.ids id t ht ▸ hid) (hsrv.holds id t ht)

theorem Invariant.frame {ch : Choices} {f : Frame} (hsrv : srv.Invariant N J)
    (hrule : Rule N J ok okCommit) (hok : srv.Meets ok okCommit (.frame id ch f))
    (h : srv.frame id ch f = some next) : next.Invariant N J := by
  obtain ⟨sess, hlive, rfl⟩ := Option.map_eq_some_iff.mp h
  obtain ⟨hget, -⟩ := live?_eq_some hlive
  obtain rfl := hsrv.sane.ids id sess hget
  obtain ⟨_, hacts, halong⟩ := hok sess hlive
  have hknown : srv.Known sess.id := by
    rw [Known, hget]
    rfl
  let I : Conn → Prop := fun d => Conn.Keeps (srv.toNode, sess) d srv.Known ∧ N d.1 ∧ J d.1 d.2 ∧
    ∀ id t, srv.sessions.get? id = some t → id ≠ sess.id → J d.1 t
  have hI : I (dispatch ch (srv.toNode, sess) f) := by
    refine hacts.invariant_along (I := I) ?_ halong ?_
    · rintro d act ⟨hkeeps, hnode, hself, hother⟩ hact hactok
      refine ⟨act.keeps hkeeps hknown, hrule.node.act d act hactok hnode,
        hrule.act d act _ hkeeps.sane hact hactok hself, ?_⟩
      intro id t ht hid
      refine hrule.act_other d act _ t hkeeps.sane hact hactok ?_ (hother id t ht hid)
      rw [hsrv.sane.ids id t ht, hkeeps.id]
      exact hid
    · exact ⟨⟨rfl, rfl, rfl, hsrv.sane.node⟩, hsrv.node, hsrv.holds _ sess hget,
        fun id t ht _ => hsrv.holds id t ht⟩
  obtain ⟨hkeeps, hnode, hself, hother⟩ := hI
  refine hsrv.put hkeeps.sane hnode hself ?_
  intro id t ht hid
  exact hother id t ht fun heq => hid (heq.trans hkeeps.id.symm)

theorem id_post (sess : Session) (msg : OutMsg) : (sess.post msg).id = sess.id := by
  rw [Session.post_eq]

theorem Invariant.send {w : ℕ} (hsrv : srv.Invariant N J) (hrule : Rule N J ok okCommit)
    (h : srv.send w = some next) : next.Invariant N J := by
  rw [Server.send] at h
  cases hsend : srv.fanout.send w with
  | none =>
    rw [hsend] at h
    cases h
  | some sent =>
    obtain ⟨bus, out⟩ := sent
    rw [hsend] at h
    have hsane : ({ srv.toNode with fanout := bus } : Node).Sane srv.Known :=
      ⟨hsrv.sane.node.bus.send hsend, hsrv.sane.node.filed⟩
    have hnode : N { srv.toNode with fanout := bus } :=
      hrule.node.bus _ _ (.inr ⟨w, .inr (.inr (.inl ⟨out, hsend⟩))⟩) hsrv.node
    have hreceived : ∀ t, J srv.toNode t → J { srv.toNode with fanout := bus } (received out t) :=
      fun t ht => hrule.send _ _ w bus out t hsrv.sane.node hsend ht
    cases out with
    | none => exact Option.some.inj h ▸ hsrv.of_node hsane hnode hreceived
    | some out =>
      obtain ⟨sub, _⟩ := out
      dsimp only at h
      cases hget : srv.sessions.get? sub.sessionID with
      | none =>
        rw [hget] at h
        cases h
      | some sess =>
        rw [hget] at h
        have hid := hsrv.sane.ids _ sess hget
        rw [← Option.some.inj h]
        refine hsrv.put hsane hnode ?_ ?_
        · have hself := hreceived sess (hsrv.holds _ sess hget)
          rwa [received, if_pos hid.symm] at hself
        · intro id t ht hne
          have hother := hreceived t (hsrv.holds id t ht)
          rwa [received, if_neg] at hother
          rw [hsrv.sane.ids id t ht]
          intro heq
          exact hne (by rw [id_post, hid, heq])

theorem Invariant.write (hsrv : srv.Invariant N J) (hrule : Rule N J ok okCommit)
    (h : srv.write id = some next) : next.Invariant N J := by
  obtain ⟨sess, hwrite, rfl⟩ := Option.map_eq_some_iff.mp h
  obtain ⟨old, hget, hold⟩ := Option.bind_eq_some_iff.mp hwrite
  exact hsrv.put hsrv.sane.node hsrv.node (hrule.write _ old sess hold (hsrv.holds id old hget))
    fun id t ht _ => hsrv.holds id t ht

theorem Invariant.step {e : ServerEvent} (hsrv : srv.Invariant N J) (hrule : Rule N J ok okCommit)
    (hok : srv.Meets ok okCommit e) (h : srv.step e = some next) : next.Invariant N J := by
  cases e with
  | connect => exact hsrv.connect hrule h
  | disconnect => exact hsrv.disconnect hrule h
  | frame => exact hsrv.frame hrule hok h
  | mutate m =>
    rw [← Option.some.inj h]
    exact hsrv.of_node (hsrv.sane.node.commit m "") (hrule.node.commit _ m hok hsrv.node)
      fun t ht => hrule.commit _ m _ t hsrv.sane.node hok ht
  | take w =>
    obtain ⟨bus, hbus, rfl⟩ := Option.map_eq_some_iff.mp h
    exact hsrv.of_node ⟨hsrv.sane.node.bus.take hbus, hsrv.sane.node.filed⟩
      (hrule.node.bus _ _ (.inr ⟨w, .inl hbus⟩) hsrv.node)
      fun t ht => hrule.take _ _ w bus t hsrv.sane.node hbus ht
  | snapshot w =>
    obtain ⟨bus, hbus, rfl⟩ := Option.map_eq_some_iff.mp h
    exact hsrv.of_node ⟨hsrv.sane.node.bus.snapshot hbus, hsrv.sane.node.filed⟩
      (hrule.node.bus _ _ (.inr ⟨w, .inr (.inl hbus)⟩) hsrv.node)
      fun t ht => hrule.snapshot _ _ w bus t hsrv.sane.node hbus ht
  | send => exact hsrv.send hrule h
  | idle w =>
    obtain ⟨bus, hbus, rfl⟩ := Option.map_eq_some_iff.mp h
    exact hsrv.of_node ⟨hsrv.sane.node.bus.idle hbus, hsrv.sane.node.filed⟩
      (hrule.node.bus _ _ (.inr ⟨w, .inr (.inr (.inr hbus))⟩) hsrv.node)
      fun t ht => hrule.idle _ _ w bus t hsrv.sane.node hbus ht
  | write => exact hsrv.write hrule h

theorem sane_new (opts : Options) : (new opts).Sane where
  ids := by
    intro id sess h
    simp [new] at h
  node := by
    refine ⟨FanoutBus.sane_new _, ?_⟩
    intro key e he
    simp [new, StateStore.new, StateStore.ring, RingLog.entries_new] at he

variable {events : List ServerEvent}

theorem Rule.run {opts : Options} (hrule : Rule N J ok okCommit)
    (hok : Along Server.step (Meets ok okCommit) (Server.new opts) events)
    (h : run Server.step (Server.new opts) events = some next) : next.Invariant N J := by
  refine invariant_along (I := Invariant N J) ?_ ⟨sane_new opts, hrule.node.init opts, ?_⟩ hok h
  · intro srv e t hsrv hmeets hstep
    exact hsrv.step hrule hmeets hstep
  · intro id sess h
    simp [Server.new] at h

theorem meets_trivial (srv : Server) (e : ServerEvent) :
    srv.Meets (fun _ _ => True) (fun _ _ => True) e := by
  cases e with
  | frame id ch f =>
    intro sess _
    obtain ⟨acts, hacts, -⟩ := dispatch_acts ch (srv.toNode, sess) f
    exact ⟨acts, hacts, along_of_forall (fun _ _ => trivial) _ _⟩
  | _ => trivial

theorem opts_step {e : ServerEvent} (h : srv.step e = some next) : next.opts = srv.opts := by
  cases e with
  | connect =>
    rw [step, connect] at h
    split at h
    · cases h
    · split_ifs at h
      exact Option.some.inj h ▸ rfl
  | disconnect =>
    obtain ⟨sess, -, rfl⟩ := Option.map_eq_some_iff.mp h
    rfl
  | frame id ch f =>
    obtain ⟨sess, -, rfl⟩ := Option.map_eq_some_iff.mp h
    exact opts_dispatch ch (srv.toNode, sess) f
  | mutate m => exact Option.some.inj h ▸ Node.opts_commit _ m _
  | take w | snapshot w | idle w =>
    obtain ⟨-, -, rfl⟩ := Option.map_eq_some_iff.mp h
    rfl
  | send =>
    rw [step, send] at h
    split at h
    · cases h
    · exact Option.some.inj h ▸ rfl
    · split at h
      · cases h
      · exact Option.some.inj h ▸ rfl
  | write =>
    obtain ⟨sess, -, rfl⟩ := Option.map_eq_some_iff.mp h
    rfl

theorem opts_run {opts : Options}
    (h : run Server.step (Server.new opts) events = some next) : next.opts = opts :=
  invariant (I := fun srv => srv.opts = opts)
    (fun _ _ _ hs hstep => (opts_step hstep).trans hs) rfl h

end Rule

end Server

end Sodp.GoServer
