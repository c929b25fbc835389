import Sodp.GoServerSteps

/-!
# Authorization on the Go server

Disclosure happens long after the check: a subscription in the bus, a snapshot that a worker holds,
a watch entry that routes the own deltas. `Permitted` ties each of them to a verdict of the ACL on
the session as it is now. The verdict lasts because a session is authenticated once, and before
that it has nothing.
-/

namespace Sodp.GoServer
open Transition OrderedMap List Option Server

def ACL.authorizer (acl : ACL) (sess : Session) (key : String) (action : Action) :
    Bool × ℤ × String :=
  if acl.authorize sess key action then (true, 0, "") else (false, 403, "access denied")

structure Options.Guarded (opts : Options) (acl : ACL) : Prop where
  required : opts.requireAuth = true
  validated : opts.jwt.isSome
  authorizer : opts.authorizeKey = some acl.authorizer

def ACL.Grants (acl : ACL) (sess : Session) (key : String) (action : Action) : Prop :=
  sess.authed = true ∧ acl.authorize sess key action = true

variable {key : String}

section Identity
variable {acl : ACL} {opts : Options} {sess other : Session}

structure Session.SameIdentity (sess other : Session) : Prop where
  authed : other.authed = sess.authed
  sub : other.sub = sess.sub
  claims : other.claims = sess.claims

theorem checkPerm_congr (h : sess.SameIdentity other) (captures : OrderedMap String String)
    (perm : String) : checkPerm other captures perm = checkPerm sess captures perm := by
  rw [checkPerm, checkPerm, h.sub, h.claims]

theorem Session.SameIdentity.grants (h : sess.SameIdentity other) (key : String) (action : Action) :
    acl.Grants other key action ↔ acl.Grants sess key action := by
  have hperms : ∀ perms captures, checkPerms perms other captures =
      checkPerms perms sess captures := by
    intro perms captures
    rw [checkPerms, checkPerms, funext (checkPerm_congr h captures)]
  rw [ACL.Grants, ACL.Grants, h.authed, ACL.authorize, ACL.authorize]
  simp only [hperms]

theorem Session.SameIdentity.post (sess : Session) (msg : OutMsg) :
    sess.SameIdentity (sess.post msg) := by
  rw [Session.post_eq]
  exact ⟨rfl, rfl, rfl⟩

theorem Options.Guarded.grants (hopts : opts.Guarded acl) {action : Action}
    (hauth : opts.requireAuth → sess.authed) (hallow : opts.Allows sess key action) :
    acl.Grants sess key action := by
  refine ⟨hauth hopts.required, ?_⟩
  have hverdict := hallow _ hopts.authorizer
  rw [ACL.authorizer] at hverdict
  split_ifs at hverdict with h
  exact h

end Identity

/-! ### What the bus may still show to a session -/

def FanoutBus.Exposed (b : FanoutBus) (id key : String) : Prop :=
  (∃ sub ∈ b.subs key, sub.sessionID = id) ∨
    ∃ w ∈ b.workers, ∃ job rest, w.stage = .sending job rest ∧ job.delta.key = key ∧
      ∃ sub ∈ rest, sub.sessionID = id

variable {sender : String}

namespace FanoutBus
section Exposed
variable {b : FanoutBus} {id key : String}

variable {ch : ℕ} {m : FanoutBus}

theorem Exposed.of_setWorker {v : Worker} (h : (b.setWorker ch v).Exposed id key)
    (hv : ∀ job rest, v.stage = .sending job rest → job.delta.key = key →
      ∀ sub ∈ rest, sub.sessionID = id → b.Exposed id key) :
    b.Exposed id key := by
  rcases h with h | ⟨w, hw, job, rest, hstage, hkey, sub, hsub, hid⟩
  · exact .inl h
  · rcases mem_workers_setWorker hw with rfl | hw
    · exact hv job rest hstage hkey sub hsub hid
    · exact .inr ⟨w, hw, job, rest, hstage, hkey, sub, hsub, hid⟩

theorem Exposed.of_subscribe {k : String} {s : Subscriber} (h : (b.subscribe k s).Exposed id key) :
    b.Exposed id key ∨ (key = k ∧ s.sessionID = id) := by
  rcases h with ⟨sub, hsub, hid⟩ | ⟨w, hw, job, rest, hstage, hrest⟩
  · rw [subs_subscribe] at hsub
    split_ifs at hsub with hk
    · rcases mem_append.mp hsub with hsub | hsub
      · exact .inl (.inl ⟨sub, hk ▸ hsub, hid⟩)
      · exact .inr ⟨hk, mem_singleton.mp hsub ▸ hid⟩
    · exact .inl (.inl ⟨sub, hsub, hid⟩)
  · rcases mem_workers_subscribe hw with rfl | hw
    · cases hstage
    · exact .inl (.inr ⟨w, hw, job, rest, hstage, hrest⟩)

theorem Exposed.of_unsubscribe {k sessionID : String} {streamID : ℕ}
    (h : (b.unsubscribe k sessionID streamID).Exposed id key) : b.Exposed id key := by
  rcases h with ⟨sub, hsub, hid⟩ | h
  · exact .inl ⟨sub, mem_subs_unsubscribe hsub, hid⟩
  · rw [workers_unsubscribe] at h
    exact .inr h

theorem Exposed.of_removeSession {sessionID : String}
    (h : (b.removeSession sessionID).Exposed id key) : b.Exposed id key := by
  rcases h with ⟨sub, hsub, hid⟩ | h
  · exact .inl ⟨sub, (mem_filter.mp hsub).1, hid⟩
  · exact .inr h

variable {delta : DeltaEntry}

theorem Exposed.of_broadcast
    (h : (b.broadcast delta sender).1.Exposed id key) : b.Exposed id key := by
  rcases broadcast_cases b delta sender with heq | ⟨_, w, -, hw, heq⟩
  · rwa [heq] at h
  · rw [heq] at h
    refine h.of_setWorker fun job rest hstage hkey sub hsub hid => ?_
    exact .inr ⟨w, mem_of_getElem? hw, job, rest, hstage, hkey, sub, hsub, hid⟩

theorem Exposed.of_take (hm : b.take ch = some m) (h : m.Exposed id key) : b.Exposed id key := by
  obtain ⟨k, job, rest, -, rfl⟩ := take_eq_some hm
  exact h.of_setWorker fun job rest hstage => by cases hstage

theorem Exposed.of_snapshot (hm : b.snapshot ch = some m) (h : m.Exposed id key) :
    b.Exposed id key := by
  obtain ⟨k, _, _, -, rfl⟩ := snapshot_eq_some hm
  refine h.of_setWorker fun j rest hstage hkey sub hsub hid => ?_
  cases hstage
  exact .inl ⟨sub, hkey ▸ hsub, hid⟩

theorem Exposed.of_send {out : Option (Subscriber × DeltaEntry)} (hm : b.send ch = some (m, out))
    (h : m.Exposed id key) : b.Exposed id key := by
  obtain ⟨k, _, job, rest, hw, ⟨rfl, rfl, -⟩ | ⟨sub, tail, rfl, rfl, -⟩⟩ := send_eq_some hm
  · exact h.of_setWorker fun j rest hstage => by cases hstage
  · refine h.of_setWorker fun j r hstage hkey s hs hid => ?_
    cases hstage
    exact .inr ⟨_, mem_of_getElem? hw, job, sub :: tail, rfl, hkey, s,
      mem_cons_of_mem sub hs, hid⟩

theorem exposed_of_sent {sub : Subscriber}
    (hm : b.send ch = some (m, some (sub, delta))) : b.Exposed sub.sessionID delta.key := by
  obtain ⟨k, _, job, -, hw, ⟨-, -, hout⟩ | ⟨s, tail, rfl, -, hout⟩⟩ := send_eq_some hm
  · cases hout
  · split_ifs at hout
    cases hout
    exact .inr ⟨_, mem_of_getElem? hw, job, sub :: tail, rfl, rfl, sub, mem_cons_self, rfl⟩

theorem Exposed.of_idle (hm : b.idle ch = some m) (h : m.Exposed id key) : b.Exposed id key := by
  rcases idle_eq_some hm with ⟨k, hw, rfl⟩ | ⟨k, job, rest, hw, rfl⟩
  · rcases h with h | ⟨w, hw, job, rest, hstage, hrest⟩
    · exact .inl h
    · rcases mem_workers_setWorker hw with rfl | hw
      · cases hstage
      · exact .inr ⟨w, hw, job, rest, hstage, hrest⟩
  · exact h

end Exposed
end FanoutBus

/-! ### The invariant -/

structure Permitted (acl : ACL) (n : Node) (sess : Session) : Prop where
  watches : ∀ streamID key, sess.watches.get? streamID = some key → acl.Grants sess key .read
  exposed : ∀ key, n.fanout.Exposed sess.id key → acl.Grants sess key .read
  shown : ∀ msg ∈ sess.enqueued, ∀ key ∈ msg.shows, acl.Grants sess key .read

namespace Permitted
variable {acl : ACL} {n : Node} {sess next : Session}

theorem mem_enqueued_post {msg m : OutMsg} (h : m ∈ (sess.post msg).enqueued) :
    m ∈ sess.enqueued ∨ m = msg := by
  rcases sess.enqueued_post msg with heq | heq
  · rw [heq] at h
    exact (mem_append.mp h).imp_right mem_singleton.mp
  · exact .inl (heq ▸ h)

theorem post (h : Permitted acl n sess) {msg : OutMsg}
    (hmsg : ∀ key ∈ msg.shows, acl.Grants sess key .read) : Permitted acl n (sess.post msg) := by
  have hsame := Session.SameIdentity.post sess msg
  refine ⟨?_, ?_, ?_⟩
  · intro streamID key hwatch
    rw [hsame.grants]
    rw [Session.post_eq] at hwatch
    exact h.watches streamID key hwatch
  · intro key hexp
    rw [hsame.grants]
    rw [id_post] at hexp
    exact h.exposed key hexp
  · intro m hm key hkey
    rw [hsame.grants]
    rcases mem_enqueued_post hm with hm | rfl
    · exact h.shown m hm key hkey
    · exact hmsg key hkey

theorem of_session (h : Permitted acl n sess) (hsame : sess.SameIdentity next)
    (hid : next.id = sess.id) (henq : next.enqueued = sess.enqueued)
    (hwatches : ∀ streamID key, next.watches.get? streamID = some key →
      acl.Grants sess key .read) : Permitted acl n next := by
  refine ⟨?_, ?_, ?_⟩
  · intro streamID key hwatch
    rw [hsame.grants]
    exact hwatches streamID key hwatch
  · intro key hexp
    rw [hsame.grants]
    exact h.exposed key (hid ▸ hexp)
  · intro msg hmsg key hkey
    rw [hsame.grants]
    exact h.shown msg (henq ▸ hmsg) key hkey

theorem of_node (h : Permitted acl n sess) {n' : Node}
    (hexp : ∀ key, n'.fanout.Exposed sess.id key →
      n.fanout.Exposed sess.id key ∨ acl.Grants sess key .read) : Permitted acl n' sess := by
  refine ⟨h.watches, ?_, h.shown⟩
  intro key hkey
  rcases hexp key hkey with hold | hgrant
  · exact h.exposed key hold
  · exact hgrant

theorem exposed_commit {m : Mutation} {id : String}
    (h : (n.commit m sender).fanout.Exposed id key) : n.fanout.Exposed id key := by
  rw [Node.commit] at h
  split at h
  · exact h
  · exact h.of_broadcast

theorem commit (h : Permitted acl n sess) (m : Mutation) (sender : String) :
    Permitted acl (n.commit m sender) sess :=
  h.of_node fun _ hkey => .inl (exposed_commit hkey)

theorem sendDeltaDirect (h : Permitted acl n sess) (range : KeyOrder ℕ) (delta : DeltaEntry) :
    Permitted acl n (sendDeltaDirect sess range delta) := by
  rw [GoServer.sendDeltaDirect]
  split_ifs with hsid
  · exact h
  · refine h.post fun key hkey => ?_
    have hwatch := (streamForKey_cases sess range delta.key).resolve_left hsid
    exact mem_some_iff.mp hkey ▸ h.watches _ _ hwatch

theorem change {c : Conn} (h : Permitted acl c.1 c.2) (m : Mutation) (f : Frame) (callID : GoValue)
    (range : KeyOrder ℕ) :
    Permitted acl (change c m f callID range).1 (change c m f callID range).2 := by
  have hresult : Permitted acl (c.1.commit m c.2.id) (c.2.post (.result f.streamID f.seq callID
      ((m.run c.1.state).2.map DeltaEntry.version))) :=
    (h.commit m c.2.id).post fun key hkey => by cases hkey
  rw [GoServer.change]
  split
  · exact hresult
  · exact hresult.sendDeltaDirect range _

end Permitted

section Acl
variable {acl : ACL} {opts : Options}

variable {c : Conn}

theorem Permitted.act {act : Act} {known : String → Prop} (hopts : c.1.opts.Guarded acl)
    (hsane : c.1.Sane known) (hact : act.Allowed c) (h : Permitted acl c.1 c.2) :
    Permitted acl (act.run c).1 (act.run c).2 := by
  cases act with
  | say msg =>
    exact h.post fun key hkey => by rw [show msg.shows = none from hact] at hkey; cases hkey
  | rate => exact h.of_session ⟨rfl, rfl, rfl⟩ rfl rfl h.watches
  | mark =>
    have hjwt := hopts.validated
    rw [hact.2] at hjwt
    cases hjwt
  | login =>
    have hnone : ∀ key, ¬ acl.Grants c.2 key .read := by
      intro key hgrant
      exact Bool.false_ne_true (hact.1.symm.trans hgrant.1)
    exact ⟨fun streamID key hwatch => absurd (h.watches streamID key hwatch) (hnone key),
      fun key hexp => absurd (h.exposed key hexp) (hnone key),
      fun msg hmsg key hkey => absurd (h.shown msg hmsg key hkey) (hnone key)⟩
  | alloc => exact h.of_session ⟨rfl, rfl, rfl⟩ rfl rfl h.watches
  | watch fresh streamID key =>
    have hgrant : acl.Grants c.2 key .read := hopts.grants hact.1 hact.2.1
    have hnode : Permitted acl ((Act.watch fresh streamID key).run c).1 c.2 := by
      refine h.of_node fun k hk => ?_
      rcases FanoutBus.Exposed.of_subscribe hk with hold | ⟨rfl, -⟩
      · exact .inl hold
      · exact .inr hgrant
    have hwatches : ∀ s k, (c.2.watches.insert streamID key).get? s = some k →
        acl.Grants c.2 k .read := by
      intro s k hs
      rw [get?_insert] at hs
      split_ifs at hs
      · exact some.inj hs ▸ hgrant
      · exact h.watches s k hs
    cases fresh with
    | false => exact hnode.of_session ⟨rfl, rfl, rfl⟩ rfl rfl hwatches
    | true => exact hnode.of_session ⟨rfl, rfl, rfl⟩ rfl rfl hwatches
  | init streamID key =>
    exact h.post fun k hk => mem_some_iff.mp hk ▸ h.watches streamID key hact
  | replay streamID entry =>
    obtain ⟨key, hwatch, hentry⟩ := hact
    have hkey : entry.key = key := hsane.filed key entry hentry
    exact h.post fun k hk => mem_some_iff.mp hk ▸ hkey ▸ h.watches streamID key hwatch
  | unwatch streamID key =>
    have hnode : Permitted acl ((Act.unwatch streamID key).run c).1 c.2 :=
      h.of_node fun k hk => .inl (FanoutBus.Exposed.of_unsubscribe hk)
    refine hnode.of_session ⟨rfl, rfl, rfl⟩ rfl rfl fun s k hs => ?_
    change (c.2.watches.erase streamID).get? s = some k at hs
    by_cases hne : s = streamID
    · rw [hne, get?_erase_self] at hs
      cases hs
    · rw [get?_erase_of_ne _ hne] at hs
      exact h.watches s k hs
  | change m f callID range => exact h.change m f callID range

theorem Permitted.act_other {act : Act} {t : Session} (hid : t.id ≠ c.2.id)
    (h : Permitted acl c.1 t) : Permitted acl (act.run c).1 t := by
  cases act with
  | watch fresh =>
    refine h.of_node fun k hk => ?_
    rcases FanoutBus.Exposed.of_subscribe hk with hold | ⟨-, heq⟩
    · exact .inl hold
    · refine absurd ?_ hid
      cases fresh with
      | false | true => exact heq.symm
  | unwatch => exact h.of_node fun k hk => .inl (FanoutBus.Exposed.of_unsubscribe hk)
  | change m => exact h.commit m _
  | _ => exact h

theorem permitted_rule (hopts : opts.Guarded acl) :
    Server.Rule (fun _ => True) (fun n sess => n.opts = opts → Permitted acl n sess)
      (fun _ _ => True) (fun _ _ => True) where
  node := .true _ _
  new := by
    intro n known id hn _ hid _
    refine ⟨fun s k hs => ?_, fun key hkey => ?_, fun msg hmsg => absurd hmsg not_mem_nil⟩
    · simp [Session.new] at hs
    · rcases hkey with ⟨sub, hsub, rfl⟩ | ⟨w, hw, _, rest, hstage, -, sub, hsub, rfl⟩
      · exact absurd (hn.bus.subs_known key sub hsub) hid
      · refine absurd (hn.bus.ahead_known w hw sub ?_) hid
        rw [Worker.ahead, hstage]
        exact hsub
  act := by
    intro c act known hsane hact _ h heq
    rw [Act.opts_run] at heq
    exact (h heq).act (heq ▸ hopts) hsane hact
  act_other := by
    intro c act known t _ _ _ hid h heq
    rw [Act.opts_run] at heq
    exact (h heq).act_other hid
  commit := by
    intro n m known t _ _ h heq
    rw [Node.opts_commit] at heq
    exact (h heq).commit m ""
  remove := fun n t id _ h heq =>
    (h heq).of_node fun _ hk => .inl (FanoutBus.Exposed.of_removeSession hk)
  close := fun n t h heq =>
    ((h heq).of_node fun _ hk => .inl (FanoutBus.Exposed.of_removeSession hk)).of_session
      ⟨rfl, rfl, rfl⟩ rfl rfl (h heq).watches
  take := fun n known w bus t _ hbus h heq =>
    (h heq).of_node fun _ hk => .inl (FanoutBus.Exposed.of_take hbus hk)
  snapshot := fun n known w bus t _ hbus h heq =>
    (h heq).of_node fun _ hk => .inl (FanoutBus.Exposed.of_snapshot hbus hk)
  send := by
    intro n known w bus out t _ hbus h heq
    have hnode : Permitted acl { n with fanout := bus } t :=
      (h heq).of_node fun _ hk => .inl (FanoutBus.Exposed.of_send hbus hk)
    cases out with
    | none => exact hnode
    | some =>
      rw [Server.received]
      split_ifs with hid
      · refine hnode.post fun k hk => ?_
        have hexp := FanoutBus.exposed_of_sent hbus
        rw [hid] at hexp
        exact mem_some_iff.mp hk ▸ (h heq).exposed _ hexp
      · exact hnode
  idle := fun n known w bus t _ hbus h heq =>
    (h heq).of_node fun _ hk => .inl (FanoutBus.Exposed.of_idle hbus hk)
  write := by
    intro n t u hwrite h heq
    rw [Session.write] at hwrite
    split at hwrite
    · cases hwrite
    · rename_i msg rest hq
      rw [← some.inj hwrite]
      refine (h heq).of_session ⟨rfl, rfl, rfl⟩ rfl ?_ (h heq).watches
      rw [Session.enqueued, Session.enqueued, hq, append_assoc]
      rfl

theorem entries_commit {n : Node} {m : Mutation} (hkey : key ≠ m.key) :
    (n.commit m sender).state.entries.get? key = n.state.entries.get? key := by
  have hrun : (m.run n.state).1.entries.get? key = n.state.entries.get? key := by
    rcases m.run_cases n.state with heq | ⟨value, _, heq⟩
    · rw [heq]
    · rw [heq]
      cases value with
      | none => exact get?_erase_of_ne _ hkey
      | some => exact get?_insert_of_ne _ hkey _
  rw [Node.commit]
  split <;> exact hrun

theorem grants_of_call {ch : Choices} {f : Frame} (hopts : c.1.opts.Guarded acl)
    (hf : f.type = .call)
    (hne : (dispatch ch c f).1.state.entries.get? key ≠ c.1.state.entries.get? key) :
    acl.Grants c.2 key .write := by
  rw [dispatch, hf] at hne
  rcases checkAuth_cases c.1.opts c.2 with ⟨hcheck, hauth⟩ | hcheck
  · simp only [hcheck, if_true] at hne
    obtain ⟨count, reset, -, ⟨⟨-, hact, -⟩, hrun⟩, ⟨_, rfl⟩ | ⟨m, _, _, rfl, -⟩⟩ :=
      handleCall_acts ch c f hauth
    · exact absurd (congrArg (fun d : Conn => d.1.state.entries.get? key) (some.inj hrun).symm) hne
    · have hsame : c.2.SameIdentity ((Act.rate count reset).run c).2 := ⟨rfl, rfl, rfl⟩
      have hgrant : acl.Grants c.2 m.key .write :=
        (hsame.grants _ _).mp (hopts.grants hact.1 hact.2)
      by_contra hdenied
      have hkey : key ≠ m.key := by
        rintro rfl
        exact hdenied hgrant
      refine hne ?_
      rw [← some.inj hrun]
      exact entries_commit hkey
  · simp only [hcheck, Bool.false_eq_true, if_false] at hne
    exact absurd rfl hne

/-- For every run: (a) a CALL that changes an entry is by a session that may write it, and (b) every
STATE_INIT and DELTA ever put into a session's channel is about a key that it may read. -/
theorem only_granted_keys {events : List ServerEvent} {srv : Server} (hopts : opts.Guarded acl)
    (hrun : run Server.step (Server.new opts) events = some srv) :
    (∀ id ch f sess next key, srv.sessions.get? id = some sess → f.type = .call →
      srv.step (.frame id ch f) = some next →
      next.state.entries.get? key ≠ srv.state.entries.get? key → acl.Grants sess key .write) ∧
    ∀ id sess, srv.sessions.get? id = some sess → ∀ msg ∈ sess.enqueued, ∀ key ∈ msg.shows,
      acl.Grants sess key .read := by
  have hsrv : srv.opts = opts := opts_run hrun
  obtain ⟨-, -, hholds⟩ := (permitted_rule hopts).run
    (along_of_forall (fun srv e => srv.meets_trivial e) _ _) hrun
  refine ⟨?_, ?_⟩
  · intro id ch f sess next key hget hf hstep hne
    obtain ⟨live, hlive, rfl⟩ := map_eq_some_iff.mp hstep
    obtain rfl := some.inj ((live?_eq_some hlive).1.symm.trans hget)
    exact grants_of_call (hsrv ▸ hopts) hf hne
  · intro id sess hget msg hmsg key hkey
    exact (hholds id sess hget hsrv).shown msg hmsg key hkey

end Acl

/-! A session authenticates, watches the key that is its own, and changes it. -/

def ownKeys : ACL := ⟨[⟨"private.{sub}", ["{sub}"], ["{sub}"]⟩]⟩

def ownKeyOptions : Options where
  requireAuth := true
  jwt := some fun token =>
    if token = "t" then some (OrderedMap.empty.insert "sub" (.string "u")) else none
  authorizeKey := some ownKeys.authorizer
  maxSessions := 4096
  rateLimit := 100
  maxWatches := 64
  backpressure := 128

def ownKeyRun : List ServerEvent :=
  [.connect "s",
    .frame "s" .plain ⟨.auth, 0, 0, .ofFields [("token", .string "t")]⟩,
    .frame "s" .plain ⟨.watch, 10, 0, .ofFields [("state", .string "private.u")]⟩,
    .frame "s" .plain ⟨.watch, 11, 0, .ofFields [("state", .string "private.v")]⟩,
    .frame "s" .plain ⟨.call, 0, 0, .ofFields [("method", .string "state.set"),
      ("args", .ofFields [("state", .string "private.u"), ("value", .string "x")])]⟩]

theorem own_key_is_shown : ∃ srv, run Server.step (Server.new ownKeyOptions) ownKeyRun = some srv ∧
      ∃ sess ∈ srv.sessions.get? "s",
        sess.enqueued.filterMap OutMsg.shows = ["private.u", "private.u"] ∧
        ownKeys.Grants sess "private.u" .read := by
  obtain ⟨srv, hrun, sess, hget, hkeys⟩ : ∃ srv ∈ run Server.step (Server.new ownKeyOptions)
      ownKeyRun, ∃ sess ∈ srv.sessions.get? "s",
        sess.enqueued.filterMap OutMsg.shows = ["private.u", "private.u"] := by
    decide +kernel
  have hopts : ownKeyOptions.Guarded ownKeys := ⟨rfl, rfl, rfl⟩
  have hmem : "private.u" ∈ sess.enqueued.filterMap OutMsg.shows := by
    rw [hkeys]
    exact mem_cons_self
  obtain ⟨msg, hmsg, hkey⟩ := mem_filterMap.mp hmem
  exact ⟨srv, hrun, sess, hget, hkeys,
    (only_granted_keys hopts hrun).2 "s" sess hget msg hmsg _ hkey⟩

end Sodp.GoServer
