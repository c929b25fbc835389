import Sodp.GoStreams

/-!
# Order of deltas on the Go server

A session's own changes are put into its channel at once; those of all others wait in the channel
of the key's worker. So a change that a session makes itself can overtake an older one.

For one session and one worker, the versions already enqueued followed by those that the worker
still has for the session are strictly increasing. A change by the session itself keeps this
exactly if nothing is pending for it.
-/

namespace Sodp.GoServer
open Transition Function List Option Server

def versionsOf (key : String) (msgs : List OutMsg) : List ℕ :=
  msgs.filterMap fun msg =>
    match msg with
    | .delta _ e => if e.key = key then some e.version else none
    | _ => none

def Worker.inHand (w : Worker) (id : String) : List ℕ :=
  match w.stage with
  | .encoding job => if job.senderSessionID = id then [] else [job.delta.version]
  | .sending job rest =>
    if job.senderSessionID = id ∨ ∀ sub ∈ rest, sub.sessionID ≠ id then [] else [job.delta.version]
  | _ => []

def waitingFor (id : String) (jobs : List FanoutJob) : List ℕ :=
  (jobs.filter fun job => job.senderSessionID ≠ id).map fun job => job.delta.version

def Worker.pending (w : Worker) (id : String) : List ℕ := w.inHand id ++ waitingFor id w.ch

def subscriptions (id : String) (subs : List Subscriber) : ℕ :=
  subs.countP fun sub => sub.sessionID = id

structure InOrder (n : Node) (sess : Session) : Prop where
  sorted : ∀ key, (versionsOf key sess.enqueued).Pairwise (· < ·)
  pending : ∀ w ∈ n.fanout.workers,
    (versionsOf w.key sess.enqueued ++ w.pending sess.id).Pairwise (· < ·)
  shown_le : ∀ key, ∀ v ∈ versionsOf key sess.enqueued, v ≤ n.state.global
  jobs_le : ∀ w ∈ n.fanout.workers, ∀ job ∈ w.jobs, job.delta.version ≤ n.state.global
  once : ∀ key, subscriptions sess.id (n.fanout.subs key) ≤ 1
  ahead_once : ∀ w ∈ n.fanout.workers, subscriptions sess.id w.ahead ≤ 1

variable (key : String) (jobs : List FanoutJob) (w : Worker) (job : FanoutJob)

theorem pending_sublist (id : String) :
    (w.pending id).Sublist (w.jobs.map fun job => job.delta.version) := by
  have hwaiting : (waitingFor id w.ch).Sublist (w.ch.map fun job => job.delta.version) :=
    filter_sublist.map _
  have hhand : ∀ {p : Prop} [Decidable p] {v : ℕ}, (if p then [] else [v]).Sublist [v] := by
    intro p _ v
    split_ifs
    · exact nil_sublist _
    · exact List.Sublist.refl _
  obtain ⟨_, _, stage⟩ := w
  cases stage with
  | waiting | returned => exact hwaiting
  | encoding job | sending job rest => exact hhand.append hwaiting

theorem mem_pending {w : Worker} {id : String} {v : ℕ} (h : v ∈ w.pending id) :
    ∃ job ∈ w.jobs, job.delta.version = v :=
  mem_map.mp ((pending_sublist w id).subset h)

theorem versionsOf_append (xs ys : List OutMsg) :
    versionsOf key (xs ++ ys) = versionsOf key xs ++ versionsOf key ys :=
  filterMap_append

theorem versionsOf_delta (streamID : ℕ) (e : DeltaEntry) :
    versionsOf key [.delta streamID e] = if e.key = key then [e.version] else [] := by
  by_cases h : e.key = key <;> simp [versionsOf, h]

namespace InOrder
variable {n : Node} {sess next : Session}

theorem of_session (h : InOrder n sess) (hid : next.id = sess.id)
    (henq : ∀ key, versionsOf key next.enqueued = versionsOf key sess.enqueued) :
    InOrder n next where
  sorted := fun key => (henq key).symm ▸ h.sorted key
  pending := fun w hw => by
    rw [henq, hid]
    exact h.pending w hw
  shown_le := fun key v hv => h.shown_le key v (henq key ▸ hv)
  jobs_le := h.jobs_le
  once := fun key => hid.symm ▸ h.once key
  ahead_once := fun w hw => hid.symm ▸ h.ahead_once w hw

theorem post_quiet (h : InOrder n sess) {msg : OutMsg} (hmsg : ∀ key, versionsOf key [msg] = []) :
    InOrder n (sess.post msg) := by
  refine h.of_session (id_post sess msg) fun key => ?_
  rcases sess.enqueued_post msg with heq | heq
  · rw [heq, versionsOf_append, hmsg, append_nil]
  · rw [heq]

theorem post_delta (h : InOrder n sess) {streamID : ℕ} {e : DeltaEntry}
    (hnew : ∀ v ∈ versionsOf e.key sess.enqueued, v < e.version) (hle : e.version ≤ n.state.global)
    (hpending : ∀ w ∈ n.fanout.workers, w.key = e.key → ∀ v ∈ w.pending sess.id, e.version < v) :
    InOrder n (sess.post (.delta streamID e)) := by
  rcases sess.enqueued_post (.delta streamID e) with heq | heq
  swap
  · exact h.of_session (id_post sess _) fun key => by rw [heq]
  have hversions : ∀ key, versionsOf key (sess.post (.delta streamID e)).enqueued =
      versionsOf key sess.enqueued ++ if e.key = key then [e.version] else [] := by
    intro key
    rw [heq, versionsOf_append, versionsOf_delta]
  have hsorted : ∀ key, (versionsOf key (sess.post (.delta streamID e)).enqueued).Pairwise
      (· < ·) := by
    intro key
    rw [hversions]
    split_ifs with hkey
    · subst hkey
      refine pairwise_append.mpr ⟨h.sorted _, pairwise_singleton _ _, fun v hv u hu => ?_⟩
      exact mem_singleton.mp hu ▸ hnew v hv
    · rw [append_nil]
      exact h.sorted key
  refine ⟨hsorted, ?_, ?_, h.jobs_le, ?_, ?_⟩
  · intro w hw
    have hold := pairwise_append.mp (h.pending w hw)
    rw [id_post]
    refine pairwise_append.mpr ⟨hsorted w.key, hold.2.1, ?_⟩
    intro v hv u hu
    rw [hversions] at hv
    rcases mem_append.mp hv with hv | hv
    · exact hold.2.2 v hv u hu
    · split_ifs at hv with hkey
      · exact mem_singleton.mp hv ▸ hpending w hw hkey.symm u hu
      · cases hv
  · intro key v hv
    rw [hversions] at hv
    rcases mem_append.mp hv with hv | hv
    · exact h.shown_le key v hv
    · split_ifs at hv
      · exact mem_singleton.mp hv ▸ hle
      · cases hv
  · intro key
    rw [id_post]
    exact h.once key
  · intro w hw
    rw [id_post]
    exact h.ahead_once w hw

variable {b : FanoutBus} {ch : ℕ}

theorem of_bus (h : InOrder n sess)
    (hworkers : ∀ w ∈ b.workers, (w.jobs = [] ∧ w.ahead = []) ∨
      ∃ u ∈ n.fanout.workers, u.key = w.key ∧ (w.pending sess.id).Sublist (u.pending sess.id) ∧
        (∀ job ∈ w.jobs, job ∈ u.jobs) ∧ subscriptions sess.id w.ahead ≤ 1)
    (honce : ∀ key, subscriptions sess.id (b.subs key) ≤ 1) :
    InOrder { n with fanout := b } sess where
  sorted := h.sorted
  pending := by
    intro w hw
    rcases hworkers w hw with ⟨hjobs, -⟩ | ⟨u, hu, hkey, hsub, -, -⟩
    · have hnone : w.pending sess.id = [] := by
        refine eq_nil_iff_forall_not_mem.mpr fun v hv => ?_
        obtain ⟨job, hjob, -⟩ := mem_pending hv
        rw [hjobs] at hjob
        cases hjob
      rw [hnone, append_nil]
      exact h.sorted w.key
    · rw [← hkey]
      exact (h.pending u hu).sublist (List.Sublist.append_left hsub _)
  shown_le := h.shown_le
  jobs_le := by
    intro w hw job hjob
    rcases hworkers w hw with ⟨hjobs, -⟩ | ⟨u, hu, -, -, hmem, -⟩
    · rw [hjobs] at hjob
      cases hjob
    · exact h.jobs_le u hu job (hmem job hjob)
  once := honce
  ahead_once := by
    intro w hw
    rcases hworkers w hw with ⟨-, hahead⟩ | ⟨u, hu, -, -, -, hone⟩
    · rw [hahead]
      exact Nat.zero_le 1
    · exact hone

theorem of_setWorker (h : InOrder n sess) {w v : Worker} (hw : n.fanout.workers[ch]? = some w)
    (hkey : w.key = v.key) (hpending : (v.pending sess.id).Sublist (w.pending sess.id))
    (hjobs : ∀ job ∈ v.jobs, job ∈ w.jobs) (hahead : subscriptions sess.id v.ahead ≤ 1) :
    InOrder { n with fanout := n.fanout.setWorker ch v } sess := by
  refine h.of_bus (fun u hu => .inr ?_) h.once
  rcases FanoutBus.mem_workers_setWorker hu with rfl | hu
  · exact ⟨w, mem_of_getElem? hw, hkey, hpending, hjobs, hahead⟩
  · exact ⟨u, hu, rfl, List.Sublist.refl _, fun _ hjob => hjob, h.ahead_once u hu⟩

variable (id : String)

theorem pending_waiting :
    (⟨key, jobs, .waiting⟩ : Worker).pending id = waitingFor id jobs := rfl

theorem waitingFor_cons (job : FanoutJob) (jobs : List FanoutJob) :
    waitingFor id (job :: jobs) =
      (if job.senderSessionID = id then [] else [job.delta.version]) ++ waitingFor id jobs := by
  rw [waitingFor, filter_cons]
  by_cases hsender : job.senderSessionID = id <;> simp [hsender, waitingFor]

theorem take (h : InOrder n sess) (hb : n.fanout.take ch = some b) :
    InOrder { n with fanout := b } sess := by
  obtain ⟨_, _, _, hw, rfl⟩ := FanoutBus.take_eq_some hb
  refine h.of_setWorker hw rfl ?_ (fun _ hjob => hjob) (Nat.zero_le 1)
  rw [pending_waiting, waitingFor_cons]
  exact List.Sublist.refl _

theorem snapshot (h : InOrder n sess) (hb : n.fanout.snapshot ch = some b) :
    InOrder { n with fanout := b } sess := by
  obtain ⟨_, _, job, hw, rfl⟩ := FanoutBus.snapshot_eq_some hb
  refine h.of_setWorker hw rfl (List.Sublist.append_right ?_ _) (fun _ hjob => hjob) (h.once _)
  rw [Worker.inHand, Worker.inHand]
  dsimp only
  by_cases hsender : job.senderSessionID = sess.id
  · rw [if_pos (.inl hsender)]
    exact nil_sublist _
  · rw [if_neg hsender]
    split_ifs
    · exact nil_sublist _
    · exact List.Sublist.refl _

theorem idle (h : InOrder n sess) (hb : n.fanout.idle ch = some b) :
    InOrder { n with fanout := b } sess := by
  rcases FanoutBus.idle_eq_some hb with ⟨key, hw, rfl⟩ | ⟨key, -, -, hw, rfl⟩
  · refine h.of_bus (fun u hu => ?_) h.once
    rcases FanoutBus.mem_workers_setWorker hu with rfl | hu
    · exact .inl ⟨rfl, rfl⟩
    · exact .inr ⟨u, hu, rfl, List.Sublist.refl _, fun _ hjob => hjob, h.ahead_once u hu⟩
  · exact h

theorem inHand_sending_nil :
    (⟨key, jobs, .sending job []⟩ : Worker).inHand id = [] := by
  rw [Worker.inHand]
  exact if_pos (.inr fun _ hsub => absurd hsub not_mem_nil)

theorem inHand_tail (sub : Subscriber) (tail : List Subscriber) (id : String) :
    ((⟨key, jobs, .sending job tail⟩ : Worker).inHand id).Sublist
      ((⟨key, jobs, .sending job (sub :: tail)⟩ : Worker).inHand id) := by
  rw [Worker.inHand, Worker.inHand]
  dsimp only
  by_cases h : job.senderSessionID = id ∨ ∀ s ∈ tail, s.sessionID ≠ id
  · rw [if_pos h]
    exact nil_sublist _
  · have h' : ¬(job.senderSessionID = id ∨ ∀ s ∈ sub :: tail, s.sessionID ≠ id) := by
      rintro (hsender | hnone)
      · exact h (.inl hsender)
      · exact h (.inr fun s hs => hnone s (mem_cons_of_mem sub hs))
    rw [if_neg h, if_neg h']

variable {known : String → Prop}

theorem pending_other (hb : b.Sane known) {i : ℕ} {w u : Worker}
    (hw : b.workers[ch]? = some w) (hrun : w.Running) (hu : b.workers[i]? = some u)
    (hkey : u.key = w.key) (hne : i ≠ ch) (id : String) : u.pending id = [] := by
  have hstage : u.stage = .returned := by
    by_contra hurun
    have hlisted := hb.wired.listed i u hu hurun
    rw [hkey, hb.wired.listed ch w hw hrun, some.injEq] at hlisted
    exact hne hlisted.symm
  have hch := hb.returned u (mem_of_getElem? hu) hstage
  rw [Worker.pending, Worker.inHand, hstage, hch]
  rfl

theorem send (h : InOrder n sess) (hsane : n.Sane known)
    {out : Option (Subscriber × DeltaEntry)} (hb : n.fanout.send ch = some (b, out)) :
    InOrder { n with fanout := b } (Server.received out sess) := by
  obtain ⟨key, jobs, job, -, hw, ⟨rfl, rfl, rfl⟩ | ⟨sub, tail, rfl, rfl, rfl⟩⟩ :=
    FanoutBus.send_eq_some hb
  · refine h.of_setWorker hw rfl ?_ (fun j hj => mem_cons_of_mem job hj) (Nat.zero_le 1)
    rw [pending_waiting, Worker.pending, inHand_sending_nil]
    exact List.Sublist.refl _
  have hmem := mem_of_getElem? hw
  have hone := h.ahead_once _ hmem
  have htail : InOrder { n with fanout := n.fanout.setWorker ch ⟨key, jobs, .sending job tail⟩ }
      sess := by
    refine h.of_setWorker hw rfl (List.Sublist.append_right (inHand_tail ..) _)
      (fun _ hjob => hjob) ?_
    exact ((sublist_cons_self sub tail).countP_le).trans hone
  split_ifs with hsender
  · exact htail
  rw [Server.received]
  split_ifs with hid
  swap
  · exact htail
  -- the session is the next one to get the job, so that its version is the first pending one
  have hpending := h.pending _ hmem
  have hkey : job.delta.key = key := hsane.bus.keyed _ hmem job mem_cons_self
  have hnone : ∀ s ∈ tail, s.sessionID ≠ sess.id := by
    intro s hs heq
    have hpos : 0 < subscriptions sess.id tail :=
      countP_pos_iff.mpr ⟨s, hs, decide_eq_true heq⟩
    have hcons : subscriptions sess.id (sub :: tail) = subscriptions sess.id tail + 1 :=
      countP_cons_of_pos (decide_eq_true hid)
    change subscriptions sess.id (sub :: tail) ≤ 1 at hone
    omega
  have hfirst : (⟨key, jobs, .sending job (sub :: tail)⟩ : Worker).pending sess.id =
      job.delta.version :: waitingFor sess.id jobs := by
    rw [Worker.pending, Worker.inHand]
    dsimp only
    rw [if_neg]
    · rfl
    · rintro (heq | hall)
      · exact hsender (hid.trans heq.symm)
      · exact hall sub mem_cons_self hid
  rw [hfirst] at hpending
  obtain ⟨-, hrest, hbefore⟩ := pairwise_append.mp hpending
  refine htail.post_delta ?_ (h.jobs_le _ hmem job mem_cons_self) ?_
  · intro v hv
    rw [hkey] at hv
    exact hbefore v hv _ mem_cons_self
  · intro u hu hukey v hv
    obtain ⟨i, hi⟩ := mem_iff_getElem?.mp hu
    rw [FanoutBus.getElem?_setWorker hw] at hi
    split_ifs at hi with hich
    · cases hi
      rw [Worker.pending, Worker.inHand] at hv
      dsimp only at hv
      rw [if_pos (.inr hnone), nil_append] at hv
      exact (pairwise_cons.mp hrest).1 v hv
    · rw [pending_other hsane.bus hw WorkerStage.noConfusion hi (hukey.trans hkey) hich] at hv
      cases hv

/-! ### Changes -/

theorem mem_workers_broadcast {delta : DeltaEntry} {sender : String} {u : Worker}
    (hu : u ∈ (b.broadcast delta sender).1.workers) :
    u ∈ b.workers ∨ ∃ w ∈ b.workers, u = { w with ch := w.ch ++ [⟨delta, sender⟩] } := by
  rcases FanoutBus.broadcast_cases b delta sender with heq | ⟨ch, w, -, hw, heq⟩
  · rw [heq] at hu
    exact .inl hu
  · rw [heq] at hu
    rcases FanoutBus.mem_workers_setWorker hu with rfl | hu
    · exact .inr ⟨w, mem_of_getElem? hw, rfl⟩
    · exact .inl hu

theorem pending_append :
    ({ w with ch := w.ch ++ [job] } : Worker).pending id =
      w.pending id ++ if job.senderSessionID = id then [] else [job.delta.version] := by
  have hwaiting : waitingFor id (w.ch ++ [job]) =
      waitingFor id w.ch ++ if job.senderSessionID = id then [] else [job.delta.version] := by
    rw [waitingFor, filter_append, map_append]
    congr 1
    by_cases hsender : job.senderSessionID = id <;> simp [hsender]
  rw [Worker.pending, Worker.pending, append_assoc, ← hwaiting]
  rfl

theorem jobs_append :
    ({ w with ch := w.ch ++ [job] } : Worker).jobs = w.jobs ++ [job] := by
  obtain ⟨-, -, stage⟩ := w
  cases stage with
  | _ => rfl

theorem jobs_le_commit
    (h : ∀ w ∈ n.fanout.workers, ∀ job ∈ w.jobs, job.delta.version ≤ n.state.global)
    (hcounter : n.state.global + 1 < 2 ^ 64) (m : Mutation) (sender : String) :
    ∀ w ∈ (n.commit m sender).fanout.workers, ∀ job ∈ w.jobs,
      job.delta.version ≤ (n.commit m sender).state.global := by
  rcases n.commit_cases m sender with ⟨-, heq⟩ | ⟨state, _, -, -, hver, hglobal, heq⟩
  · rw [heq]
    exact h
  have hnext : n.state.nextVersion = n.state.global + 1 := Nat.mod_eq_of_lt hcounter
  rw [hnext] at hver hglobal
  rw [heq]
  intro u hu job hjob
  change job.delta.version ≤ state.global
  rcases mem_workers_broadcast hu with hu | ⟨w, hw, rfl⟩
  · have := h u hu job hjob
    omega
  · rw [jobs_append] at hjob
    rcases mem_append.mp hjob with hjob | hjob
    · have := h w hw job hjob
      omega
    · rw [mem_singleton.mp hjob, hver, hglobal]

theorem commit (h : InOrder n sess) (hcounter : n.state.global + 1 < 2 ^ 64) (m : Mutation)
    (sender : String) : InOrder (n.commit m sender) sess := by
  have hjobs := jobs_le_commit h.jobs_le hcounter m sender
  rcases n.commit_cases m sender with ⟨-, heq⟩ | ⟨state, _, -, -, hver, hglobal, heq⟩
  · rw [heq]
    exact h
  have hnext : n.state.nextVersion = n.state.global + 1 := Nat.mod_eq_of_lt hcounter
  rw [hnext] at hver hglobal
  have hold : ∀ w ∈ n.fanout.workers, ∀ v ∈ versionsOf w.key sess.enqueued ++ w.pending sess.id,
      v ≤ n.state.global := by
    intro w hw v hv
    rcases mem_append.mp hv with hv | hv
    · exact h.shown_le _ v hv
    · obtain ⟨job, hjob, rfl⟩ := mem_pending hv
      exact h.jobs_le w hw job hjob
  rw [heq] at hjobs ⊢
  refine ⟨h.sorted, ?_, ?_, hjobs, ?_, ?_⟩
  · intro u hu
    rcases mem_workers_broadcast hu with hu | ⟨w, hw, rfl⟩
    · exact h.pending u hu
    · rw [pending_append, ← append_assoc]
      refine pairwise_append.mpr ⟨h.pending w hw, ?_, ?_⟩
      · split_ifs
        · exact List.Pairwise.nil
        · exact pairwise_singleton _ _
      · intro v hv x hx
        have := hold w hw v hv
        split_ifs at hx
        · cases hx
        · rw [mem_singleton.mp hx, hver]
          omega
  · intro key v hv
    have := h.shown_le key v hv
    change v ≤ state.global
    omega
  · intro key
    rw [FanoutBus.subs_broadcast]
    exact h.once key
  · intro u hu
    rcases mem_workers_broadcast hu with hu | ⟨w, hw, rfl⟩
    · exact h.ahead_once u hu
    · exact h.ahead_once w hw

end InOrder

def NothingPending (n : Node) (sess : Session) (key : String) : Prop :=
  (∃ streamID, sess.watches.get? streamID = some key) →
    ∀ w ∈ n.fanout.workers, w.key = key → w.pending sess.id = []

variable {c : Conn} {n : Node}

theorem InOrder.change (h : InOrder c.1 c.2) (hcounter : c.1.state.global + 1 < 2 ^ 64)
    {m : Mutation} (hpending : NothingPending c.1 c.2 m.key) (f : Frame) (callID : GoValue)
    (range : KeyOrder ℕ) : InOrder (change c m f callID range).1 (change c m f callID range).2 := by
  set result : OutMsg :=
    .result f.streamID f.seq callID ((m.run c.1.state).2.map DeltaEntry.version) with hres
  have hquiet : ∀ key, versionsOf key [result] = [] := fun _ => rfl
  have hposted := h.post_quiet hquiet
  have hresult := hposted.commit hcounter m c.2.id
  rw [GoServer.change]
  rw [← hres]
  rcases c.1.commit_cases m c.2.id with ⟨hnone, -⟩ | ⟨_, delta, hrun, hkey, hver, hglobal, heq⟩
  · rw [hnone]
    exact hresult
  have hnext : c.1.state.nextVersion = c.1.state.global + 1 := Nat.mod_eq_of_lt hcounter
  rw [hrun]
  dsimp only
  rw [sendDeltaDirect]
  split_ifs with hsid
  · exact hresult
  have hwatch := (streamForKey_cases (c.2.post result) range delta.key).resolve_left hsid
  have hwatches : (c.2.post result).watches = c.2.watches := by rw [Session.post_eq]
  have hlive : ∃ streamID, c.2.watches.get? streamID = some m.key := by
    rw [hwatches] at hwatch
    exact ⟨_, hkey ▸ hwatch⟩
  refine hresult.post_delta ?_ ?_ ?_
  · intro v hv
    have := hposted.shown_le _ v hv
    omega
  · rw [heq]
    exact (hver.trans hglobal.symm).le
  · intro u hu hukey v hv
    rw [heq] at hu
    rw [id_post] at hv
    rcases InOrder.mem_workers_broadcast hu with hu | ⟨w, hw, rfl⟩
    · rw [hpending hlive u hu (hukey.trans hkey)] at hv
      cases hv
    · rw [InOrder.pending_append, hpending hlive w hw (hukey.trans hkey), if_pos rfl] at hv
      cases hv

/-! ### The rule -/

/-- No key is watched twice, nothing is replayed, and a change overtakes nothing. -/
def OrderAct (c : Conn) : Act → Prop
  | .watch _ _ key => subscriptions c.2.id (c.1.fanout.subs key) = 0
  | .replay _ _ => False
  | .change m _ _ _ => c.1.state.global + 1 < 2 ^ 64 ∧ NothingPending c.1 c.2 m.key
  | _ => True

section Subscriptions
variable {b : FanoutBus} {id : String}

theorem subscriptions_subscribe (k : String) (sub : Subscriber) :
    subscriptions id ((b.subscribe key sub).subs k) = subscriptions id (b.subs k) +
      if k = key ∧ sub.sessionID = id then 1 else 0 := by
  rw [FanoutBus.subs_subscribe]
  by_cases hk : k = key
  · by_cases hid : sub.sessionID = id <;> simp [hk, hid, subscriptions]
  · simp [hk]

theorem subscriptions_unsubscribe_le (k sessionID : String) (streamID : ℕ) :
    subscriptions id ((b.unsubscribe key sessionID streamID).subs k) ≤
      subscriptions id (b.subs k) := by
  rw [FanoutBus.unsubscribe]
  split
  · exact le_rfl
  · rename_i i hfind
    dsimp only
    by_cases hk : k = key
    · subst hk
      obtain ⟨hi, -, -⟩ := findIdx?_eq_some_iff_getElem.mp hfind
      have hperm := FanoutBus.cons_swapRemove_perm (getElem?_eq_getElem hi)
      rw [update_self, subscriptions, subscriptions, ← hperm.countP_eq]
      exact (sublist_cons_self _ _).countP_le
    · rw [update_of_ne hk]

end Subscriptions

theorem InOrder.subscribe {sess : Session} (h : InOrder n sess) {key : String} {sub : Subscriber}
    (honce : sub.sessionID = sess.id → subscriptions sess.id (n.fanout.subs key) = 0) :
    InOrder { n with fanout := n.fanout.subscribe key sub } sess := by
  refine h.of_bus (fun u hu => ?_) fun k => ?_
  · rcases FanoutBus.mem_workers_subscribe hu with rfl | hu
    · exact .inl ⟨rfl, rfl⟩
    · exact .inr ⟨u, hu, rfl, List.Sublist.refl _, fun _ hjob => hjob, h.ahead_once u hu⟩
  · rw [subscriptions_subscribe]
    split_ifs with hk
    · rw [hk.1, honce hk.2]
    · exact h.once k

theorem InOrder.of_subs {sess : Session} (h : InOrder n sess) {b : FanoutBus}
    (hworkers : b.workers = n.fanout.workers)
    (hsubs : ∀ key, subscriptions sess.id (b.subs key) ≤
      subscriptions sess.id (n.fanout.subs key)) :
    InOrder { n with fanout := b } sess := by
  refine h.of_bus (fun u hu => .inr ?_) fun k => (hsubs k).trans (h.once k)
  rw [hworkers] at hu
  exact ⟨u, hu, rfl, List.Sublist.refl _, fun _ hjob => hjob, h.ahead_once u hu⟩

theorem InOrder.act {act : Act} (hact : act.Allowed c) (hok : OrderAct c act)
    (h : InOrder c.1 c.2) :
    InOrder (act.run c).1 (act.run c).2 := by
  cases act with
  | say msg =>
    refine h.post_quiet fun key => ?_
    cases msg with
    | stateInit | delta => cases hact
    | _ => rfl
  | rate count reset | mark | login sub claims | alloc => exact h.of_session rfl fun _ => rfl
  | watch fresh streamID key =>
    have hnode : InOrder { c.1 with fanout := c.1.fanout.subscribe key ⟨c.2.id, streamID⟩ } c.2 :=
      h.subscribe fun _ => hok
    cases fresh with
    | false => exact hnode.of_session rfl fun _ => rfl
    | true => exact hnode.of_session rfl fun _ => rfl
  | init => exact h.post_quiet fun _ => rfl
  | replay => exact hok.elim
  | unwatch streamID key =>
    have hnode : InOrder { c.1 with fanout := c.1.fanout.unsubscribe key c.2.id streamID } c.2 :=
      h.of_subs (FanoutBus.workers_unsubscribe ..) fun k => subscriptions_unsubscribe_le ..
    exact hnode.of_session rfl fun _ => rfl
  | change m f callID range => exact h.change hok.1 hok.2 f callID range

theorem InOrder.act_other {act : Act} {t : Session} (hok : OrderAct c act) (hid : t.id ≠ c.2.id)
    (h : InOrder c.1 t) : InOrder (act.run c).1 t := by
  cases act with
  | watch fresh streamID key =>
    have hne : ∀ id, id = c.2.id → id = t.id → subscriptions t.id (c.1.fanout.subs key) = 0 :=
      fun id hc ht => absurd (ht.symm.trans hc) hid
    cases fresh with
    | false | true => exact h.subscribe (hne _ rfl)
  | unwatch =>
    exact h.of_subs (FanoutBus.workers_unsubscribe ..) fun k => subscriptions_unsubscribe_le ..
  | change m => exact h.commit hok.1 m _
  | _ => exact h

def JobsOrdered (n : Node) : Prop :=
  ∀ w ∈ n.fanout.workers, (w.jobs.map fun job => job.delta.version).Pairwise (· < ·) ∧
    ∀ job ∈ w.jobs, job.delta.version ≤ n.state.global

theorem JobsOrdered.of_bus {b : FanoutBus} (h : JobsOrdered n)
    (hworkers : ∀ w ∈ b.workers, w.jobs = [] ∨ ∃ u ∈ n.fanout.workers, w.jobs.Sublist u.jobs) :
    JobsOrdered { n with fanout := b } := by
  intro w hw
  rcases hworkers w hw with hnone | ⟨u, hu, hsub⟩
  · rw [hnone]
    exact ⟨List.Pairwise.nil, fun job hjob => absurd hjob not_mem_nil⟩
  · exact ⟨(h u hu).1.sublist (hsub.map _), fun job hjob => (h u hu).2 job (hsub.subset hjob)⟩

theorem JobsOrdered.commit (h : JobsOrdered n) (hcounter : n.state.global + 1 < 2 ^ 64)
    (m : Mutation) (sender : String) : JobsOrdered (n.commit m sender) := by
  have hle := InOrder.jobs_le_commit (fun w hw => (h w hw).2) hcounter m sender
  refine fun u hu => ⟨?_, hle u hu⟩
  rcases n.commit_cases m sender with ⟨-, heq⟩ | ⟨_, delta, -, -, _, -, heq⟩
  · rw [heq] at hu
    exact (h u hu).1
  rw [heq] at hu
  rcases InOrder.mem_workers_broadcast hu with hu | ⟨w, hw, rfl⟩
  · exact (h u hu).1
  · rw [InOrder.jobs_append, map_append]
    refine pairwise_append.mpr ⟨(h w hw).1, pairwise_singleton _ _, fun v hv x hx => ?_⟩
    obtain ⟨job, hjob, rfl⟩ := mem_map.mp hv
    have hold := (h w hw).2 job hjob
    have hx : x = delta.version := mem_singleton.mp hx
    have hnext : n.state.nextVersion = n.state.global + 1 := Nat.mod_eq_of_lt hcounter
    omega

theorem JobsOrdered.of_setWorker (h : JobsOrdered n) {ch : ℕ} {w v : Worker}
    (hw : n.fanout.workers[ch]? = some w) (hjobs : v.jobs.Sublist w.jobs) :
    JobsOrdered { n with fanout := n.fanout.setWorker ch v } := by
  refine h.of_bus fun u hu => .inr ?_
  rcases FanoutBus.mem_workers_setWorker hu with rfl | hu
  · exact ⟨w, mem_of_getElem? hw, hjobs⟩
  · exact ⟨u, hu, List.Sublist.refl _⟩

theorem jobsOrdered_rule :
    Server.NodeRule JobsOrdered OrderAct (fun n _ => n.state.global + 1 < 2 ^ 64) where
  init := fun opts w hw => absurd hw not_mem_nil
  act := by
    intro c act hok h
    cases act with
    | watch =>
      refine h.of_bus fun u hu => ?_
      rcases FanoutBus.mem_workers_subscribe hu with rfl | hu
      · exact .inl rfl
      · exact .inr ⟨u, hu, List.Sublist.refl _⟩
    | unwatch =>
      refine h.of_bus fun u hu => .inr ⟨u, ?_, List.Sublist.refl _⟩
      rwa [FanoutBus.workers_unsubscribe] at hu
    | change m => exact h.commit hok.1 m _
    | _ => exact h
  commit := fun n m hok h => h.commit hok m ""
  bus := by
    rintro n bus (⟨-, rfl⟩ | ⟨w, hb | hb | ⟨_, hb⟩ | hb⟩) h
    · exact h
    · obtain ⟨key, job, rest, hw, rfl⟩ := FanoutBus.take_eq_some hb
      exact h.of_setWorker hw (List.Sublist.refl _)
    · obtain ⟨key, jobs, job, hw, rfl⟩ := FanoutBus.snapshot_eq_some hb
      exact h.of_setWorker hw (List.Sublist.refl _)
    · obtain ⟨key, jobs, job, rest, hw, ⟨-, rfl, -⟩ | ⟨-, -, -, rfl, -⟩⟩ :=
        FanoutBus.send_eq_some hb
      · exact h.of_setWorker hw (sublist_cons_self _ _)
      · exact h.of_setWorker hw (List.Sublist.refl _)
    · rcases FanoutBus.idle_eq_some hb with ⟨key, hw, rfl⟩ | ⟨key, job, rest, hw, rfl⟩
      · exact h.of_setWorker hw (List.Sublist.refl _)
      · exact h

theorem inOrder_rule :
    Server.Rule JobsOrdered InOrder OrderAct (fun n _ => n.state.global + 1 < 2 ^ 64) where
  node := jobsOrdered_rule
  new := by
    intro n known id hn hjobs hid
    have hzero : ∀ subs : List Subscriber, (∀ sub ∈ subs, known sub.sessionID) →
        subscriptions id subs ≤ 1 := by
      intro subs hsubs
      refine (countP_eq_zero.mpr fun sub hsub heq => hid ?_).le.trans (Nat.zero_le 1)
      exact of_decide_eq_true heq ▸ hsubs sub hsub
    exact ⟨fun _ => List.Pairwise.nil, fun w hw => (hjobs w hw).1.sublist (pending_sublist w id),
      fun _ v hv => absurd hv not_mem_nil, fun w hw => (hjobs w hw).2,
      fun key => hzero _ (hn.bus.subs_known key), fun w hw => hzero _ (hn.bus.ahead_known w hw)⟩
  act := fun c act known _ hact hok h => h.act hact hok
  act_other := fun c act known t _ _ hok hid h => h.act_other hok hid
  commit := fun n m known t _ hok h => h.commit hok m ""
  remove := fun n t id _ h => h.of_subs rfl fun key => (filter_sublist).countP_le
  close := fun n t h => by
    have hnode : InOrder { n with fanout := n.fanout.removeSession t.id } t :=
      h.of_subs rfl fun key => (filter_sublist).countP_le
    exact hnode.of_session rfl fun _ => rfl
  take := fun n known w bus t _ hbus h => h.take hbus
  snapshot := fun n known w bus t _ hbus h => h.snapshot hbus
  send := fun n known w bus out t hsane hbus h => h.send hsane hbus
  idle := fun n known w bus t _ hbus h => h.idle hbus
  write := by
    intro n t u hwrite h
    rw [Session.write] at hwrite
    split at hwrite
    · cases hwrite
    · rename_i msg rest hq
      rw [← some.inj hwrite]
      refine h.of_session rfl fun key => ?_
      rw [Session.enqueued, Session.enqueued, hq, append_assoc]
      rfl

/-! ### Frames -/

/-- No frame is a RESUME, and a WATCH frame names keys that differ from each other and to which the
session is not subscribed. -/
def Server.WatchesOnce (srv : Server) : ServerEvent → Prop
  | .frame id ch f => f.type ≠ .resume ∧ ∀ sess ∈ srv.live? id, f.type = .watch →
      (f.watchKeys ch.conversions).Nodup ∧
        ∀ key ∈ f.watchKeys ch.conversions, subscriptions sess.id (srv.fanout.subs key) = 0
  | _ => True

/-- A call finds no delta of its key on the way to the caller, if the caller watches the key, and
the version counter does not wrap around. -/
def Server.OvertakesNothing (srv : Server) : ServerEvent → Prop
  | .frame id _ f => ∀ sess ∈ srv.live? id, f.type = .call →
      srv.state.global + 1 < 2 ^ 64 ∧ NothingPending srv.toNode sess f.callKey
  | .mutate _ => srv.state.global + 1 < 2 ^ 64
  | _ => True

theorem subscriptions_run {act : Act} {key : String}
    (hopens : ∀ streamID, act.opens ≠ some (streamID, key))
    (h : subscriptions c.2.id (c.1.fanout.subs key) = 0) :
    subscriptions (act.run c).2.id ((act.run c).1.fanout.subs key) = 0 := by
  rw [(act.session_run c).1]
  cases act with
  | watch fresh streamID k =>
    have hne : key ≠ k := by
      rintro rfl
      exact hopens streamID rfl
    change subscriptions c.2.id ((c.1.fanout.subscribe k _).subs key) = 0
    rw [subscriptions_subscribe, if_neg fun hk => hne hk.1]
    exact h
  | unwatch =>
    exact Nat.le_zero.mp ((subscriptions_unsubscribe_le _ _ _ _).trans h.le)
  | change m =>
    change subscriptions c.2.id ((c.1.commit m c.2.id).fanout.subs key) = 0
    rw [Node.subs_commit]
    exact h
  | _ => exact h

theorem along_orderAct {acts : List Act} (hquiet : ∀ act ∈ acts, act.Quiet)
    (hnodup : ((acts.filterMap Act.opens).map Prod.snd).Nodup)
    (hfree : ∀ key ∈ (acts.filterMap Act.opens).map Prod.snd,
      subscriptions c.2.id (c.1.fanout.subs key) = 0) :
    Along Act.step OrderAct c acts := by
  refine along_of_opens (F := fun c key => subscriptions c.2.id (c.1.fanout.subs key) = 0)
    ?_ ?_ ?_ hquiet hnodup hfree
  · intro c act key _ hopens h
    exact subscriptions_run (fun streamID hkey => hopens _ hkey rfl) h
  · intro c act hquiet hnone
    cases act with
    | watch => cases hnone
    | replay | change => exact hquiet.elim
    | _ => trivial
  · intro c act opened hopened h
    cases act with
    | watch =>
      cases hopened
      exact h
    | replay | change => cases hopened
    | _ => trivial

theorem handler_inOrder {f : Frame} (ch : Choices) (hresume : f.type ≠ .resume)
    (hwatch : f.type = .watch → (f.watchKeys ch.conversions).Nodup ∧
      ∀ key ∈ f.watchKeys ch.conversions, subscriptions c.2.id (c.1.fanout.subs key) = 0)
    (hcall : f.type = .call → c.1.state.global + 1 < 2 ^ 64 ∧ NothingPending c.1 c.2 f.callKey) :
    ∃ acts, Acts c acts (dispatch ch c f) ∧ Along Act.step OrderAct c acts := by
  have hquiet : ∀ d, (∃ acts, Acts c acts d ∧ acts.filterMap Act.opens = [] ∧
      ∀ act ∈ acts, act.Quiet) → ∃ acts, Acts c acts d ∧ Along Act.step OrderAct c acts := by
    rintro d ⟨acts, hacts, hopens, hquiet⟩
    refine ⟨acts, hacts, along_orderAct hquiet ?_ ?_⟩
    · rw [hopens]
      exact nodup_nil
    · rw [hopens]
      exact fun key hkey => absurd hkey not_mem_nil
  have hsay : ∀ msg : OutMsg, msg.shows = none →
      ∃ acts, Acts c acts (c.1, c.2.post msg) ∧ Along Act.step OrderAct c acts :=
    fun msg hmsg => ⟨[.say msg], Acts.say hmsg, trivial, trivial⟩
  rw [dispatch]
  cases htype : f.type with
  | auth => exact hquiet _ (handleAuth_acts c f)
  | unwatch => exact hquiet _ (handleUnwatch_acts ch c f)
  | resume => exact absurd htype hresume
  | heartbeat | other => exact hsay _ rfl
  | watch =>
    rcases checkAuth_cases c.1.opts c.2 with ⟨hchecked, hauth⟩ | hchecked
    swap
    · rw [hchecked]
      exact hsay _ rfl
    rw [hchecked]
    obtain ⟨acts, hacts, hopens, hquiet⟩ := handleWatch_acts ch c f hauth
    obtain ⟨hnodup, hfree⟩ := hwatch htype
    have hkeys := opens_snd hopens
    exact ⟨acts, hacts, along_orderAct hquiet (hnodup.sublist hkeys.sublist)
      fun key hkey => hfree key (hkeys.subset hkey)⟩
  | call =>
    rcases checkAuth_cases c.1.opts c.2 with ⟨hchecked, hauth⟩ | hchecked
    swap
    · rw [hchecked]
      exact hsay _ rfl
    rw [hchecked]
    obtain ⟨_, _, act, hacts, ⟨msg, rfl⟩ | ⟨m, _, _, rfl, hkey⟩⟩ :=
      handleCall_acts ch c f hauth
    · exact ⟨_, hacts, trivial, trivial, trivial⟩
    · obtain ⟨hcounter, hpending⟩ := hcall htype
      exact ⟨_, hacts, trivial, ⟨hcounter, hkey ▸ hpending⟩, trivial⟩

theorem meets_of_overtakesNothing {srv : Server} {e : ServerEvent} (hwatch : srv.WatchesOnce e)
    (hnothing : srv.OvertakesNothing e) :
    srv.Meets OrderAct (fun n _ => n.state.global + 1 < 2 ^ 64) e := by
  cases e with
  | frame id ch =>
    intro sess hlive
    exact handler_inOrder ch hwatch.1 (hwatch.2 sess hlive) (hnothing sess hlive)
  | mutate => exact hnothing
  | _ => trivial

/-- Along every run in which no call overtakes a delta: in the channel of each session the versions
of a key are strictly increasing. -/
theorem versions_in_order {opts : Options} {events : List ServerEvent} {srv : Server}
    (hrun : run Server.step (Server.new opts) events = some srv)
    (hwatch : Along Server.step Server.WatchesOnce (Server.new opts) events)
    (hnothing : Along Server.step Server.OvertakesNothing (Server.new opts) events)
    {id : String} {sess : Session} (hget : srv.sessions.get? id = some sess) (key : String) :
    (versionsOf key sess.enqueued).Pairwise (· < ·) := by
  have hmeets := (hwatch.and hnothing).imp fun _ _ h => meets_of_overtakesNothing h.1 h.2
  exact ((inOrder_rule.run hmeets hrun).holds id sess hget).sorted key

/-! ### Two runs -/

instance (srv : Server) : (e : ServerEvent) → Decidable (srv.WatchesOnce e)
  | .frame .. => by
    dsimp only [Server.WatchesOnce]
    infer_instance
  | .connect _ | .disconnect _ | .mutate _ | .take _ | .snapshot _ | .send _ | .idle _ | .write _ =>
    isTrue trivial

instance (n : Node) (sess : Session) (key : String) : Decidable (NothingPending n sess key) :=
  decidable_of_iff ((∃ streamID ∈ sess.watches.keys, sess.watches.get? streamID = some key) →
    ∀ w ∈ n.fanout.workers, w.key = key → w.pending sess.id = []) <| by
    rw [NothingPending]
    refine imp_congr ⟨fun ⟨s, _, h⟩ => ⟨s, h⟩, fun ⟨s, h⟩ => ⟨s, ?_, h⟩⟩ Iff.rfl
    exact (OrderedMap.mem_keys_iff _ s).mpr ⟨key, h⟩

instance (srv : Server) : (e : ServerEvent) → Decidable (srv.OvertakesNothing e)
  | .frame .. | .mutate _ => by
    dsimp only [Server.OvertakesNothing]
    infer_instance
  | .connect _ | .disconnect _ | .take _ | .snapshot _ | .send _ | .idle _ | .write _ =>
    isTrue trivial

def setFrame (key value : String) : Frame :=
  ⟨.call, 0, 0, .ofFields [("method", .string "state.set"),
    ("args", .ofFields [("state", .string key), ("value", .string value)])]⟩

def changesInTurn : List ServerEvent :=
  [.connect "a", .connect "b", .frame "a" .plain (watchFrame 10 ["k"]),
    .frame "b" .plain (watchFrame 10 ["k"]), .frame "b" .plain (setFrame "k" "x"),
    .take 0, .snapshot 0, .send 0, .send 0, .send 0, .frame "a" .plain (setFrame "k" "y")]

theorem changes_in_turn_are_in_order :
    ∃ srv, run Server.step (Server.new .plain) changesInTurn = some srv ∧
      ∃ sess ∈ srv.sessions.get? "a", versionsOf "k" sess.enqueued = [1, 2] ∧
        (versionsOf "k" sess.enqueued).Pairwise (· < ·) := by
  obtain ⟨srv, hrun, sess, hget, hv⟩ : ∃ srv ∈ run Server.step (Server.new .plain) changesInTurn,
      ∃ sess ∈ srv.sessions.get? "a", versionsOf "k" sess.enqueued = [1, 2] := by
    decide +kernel
  exact ⟨srv, hrun, sess, hget, hv,
    versions_in_order hrun (by decide +kernel) (by decide +kernel) hget "k"⟩

def ownChangeFirst : List ServerEvent :=
  [.connect "a", .connect "b", .frame "a" .plain (watchFrame 10 ["k"]),
    .frame "b" .plain (setFrame "k" "x"), .frame "a" .plain (setFrame "k" "y"),
    .take 0, .snapshot 0, .send 0]

theorem own_change_overtakes :
    Along Server.step Server.WatchesOnce (Server.new .plain) ownChangeFirst ∧
      ((run Server.step (Server.new .plain) ownChangeFirst).bind
        fun srv => srv.sessions.get? "a").map (fun sess => versionsOf "k" sess.enqueued) =
          some [2, 1] := by
  decide +kernel

end Sodp.GoServer
