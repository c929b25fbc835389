import Sodp.SequentialStore
import Sodp.SessionRuns

/-!
# Authorization

The access rules are asked once, when a frame is handled, but what they allowed acts later: a
watched key keeps delivering, a presence path is removed when the connection ends. So the answers
are kept as an invariant (`Granted`).

A DELTA names no key. It is about the key whose delta log has it, or for which the calls of the
event issued it.
-/

namespace Sodp
open StateStore Transition List

/-- The message reports a value or a delta of the key, as the store had it before the
event or as the calls of the event made it. -/
def OutboundMsg.Carries (s : StateStore) (calls : List Call) : OutboundMsg → String → Prop
  | .stateInit _ _ key _ value _ _, k =>
    key = k ∧ ∃ made, made <+: calls ∧ value = (s.execAll made).valueOf k
  | .delta _ _ version ops, k =>
    (version, ops) ∈ s.log.held k ∨ (k, version, ops) ∈ s.issuedBy calls
  | _, _ => False

variable {s : StateStore} {calls : List Call} {msg : OutboundMsg} {k : String}

theorem OutboundMsg.Carries.mono (h : msg.Carries s calls k) (more : List Call) :
    msg.Carries s (calls ++ more) k := by
  cases msg with
  | stateInit =>
    obtain ⟨hkey, made, hmade, hvalue⟩ := h
    exact ⟨hkey, made, hmade.trans (prefix_append calls more), hvalue⟩
  | delta =>
    refine Or.imp_right (fun h => ?_) h
    rw [issuedBy_append]
    exact mem_append_left _ h
  | resultOk | error | heartbeat => exact h

theorem OutboundMsg.Carries.after {more : List Call} (h : msg.Carries (s.execAll calls) more k) :
    msg.Carries s (calls ++ more) k := by
  cases msg with
  | stateInit =>
    obtain ⟨hkey, made, hmade, hvalue⟩ := h
    refine ⟨hkey, calls ++ made, (prefix_append_right_inj calls).mpr hmade, ?_⟩
    rw [hvalue, execAll, execAll, execAll, foldl_append]
  | delta =>
    rw [Carries, issuedBy_append, mem_append, ← or_assoc]
    exact Or.imp_left mem_held_execAll h
  | resultOk | error | heartbeat => exact h

theorem OutboundMsg.Carries.key_unique (hs : KeyedVersions s) {j : String}
    (hk : msg.Carries s calls k) (hj : msg.Carries s calls j) : k = j := by
  cases msg with
  | stateInit => exact hk.1.symm.trans hj.1
  | delta => exact hs.key_unique hk hj rfl
  | resultOk | error | heartbeat => exact hk.elim

theorem OutboundMsg.Carries.aboutState (h : msg.Carries s calls k) : msg.aboutState = true := by
  cases msg with
  | stateInit | delta => rfl
  | resultOk | error | heartbeat => exact h.elim

namespace SodpServer

section Grants
variable (mayRead mayWrite : String → String → Prop)

structure Granted (acc : SodpServer × Session) : Prop where
  reads : ∀ k, acc.1.canRead acc.2 k = true → mayRead acc.2.id k
  writes : ∀ k, acc.1.canWrite acc.2 k = true → mayWrite acc.2.id k
  watched : ∀ streamId k, acc.2.Watches streamId k → mayRead acc.2.id k
  owned : ∀ entry ∈ acc.2.presence, mayWrite acc.2.id entry.stateKey
  subscribed : ∀ k i, acc.1.fanout.streamsOf k i ≠ [] → mayRead i k

structure Permitted (id : String) (srv : SodpServer) (calls : List Call) (srv' : SodpServer) :
    Prop where
  writes : ∀ call ∈ calls, mayWrite id call.key
  reads : ∀ i, ∃ sent, (srv'.handles i).queue = (srv.handles i).queue ++ sent ∧
    ∀ msg ∈ sent, msg.aboutState = true → ∃ k, msg.Carries srv.state calls k ∧ mayRead i k

end Grants

variable {mayRead mayWrite : String → String → Prop} {ended : List String}
  {acc acc' : SodpServer × Session} {calls : List Call}

theorem Granted.fixed (h : Granted mayRead mayWrite acc) (hfixed : Fixed acc acc')
    (hwatched : ∀ streamId k, acc'.2.Watches streamId k → mayRead acc.2.id k)
    (howned : ∀ entry ∈ acc'.2.presence, mayWrite acc.2.id entry.stateKey)
    (hsubscribed : ∀ k i, acc'.1.fanout.streamsOf k i ≠ [] → mayRead i k) :
    Granted mayRead mayWrite acc' where
  reads k hk := by
    rw [hfixed.id]
    exact h.reads k ((hfixed.canRead k).symm.trans hk)
  writes k hk := by
    rw [hfixed.id]
    exact h.writes k ((hfixed.canWrite k).symm.trans hk)
  watched streamId k hk := by
    rw [hfixed.id]
    exact hwatched streamId k hk
  owned entry hentry := by
    rw [hfixed.id]
    exact howned entry hentry
  subscribed := hsubscribed

theorem Effect.granted (heffect : Effect ended acc calls acc')
    (h : Granted mayRead mayWrite acc) : Granted mayRead mayWrite acc' := by
  have hfixed := heffect.fixed
  cases heffect with
  | adjust hsame =>
    refine h.fixed hfixed (fun n k hk => h.watched n k ((hsame.watches n k).mp hk)) ?_ h.subscribed
    rw [hsame.presence]
    exact h.owned
  | openStream params hread =>
    refine h.fixed hfixed (fun n k hk => ?_) h.owned fun k i hk => ?_
    · rw [SodpServer.openStream, Session.watches_addWatch] at hk
      split_ifs at hk
      · exact hk ▸ h.reads _ hread
      · exact h.watched n k hk
    · rw [SodpServer.openStream, FanoutBus.streamsOf_subscribe] at hk
      split_ifs at hk with hnew
      · rw [hnew.1, hnew.2]
        exact h.reads _ hread
      · rw [append_nil] at hk
        exact h.subscribed k i hk
  | closeStream =>
    refine h.fixed hfixed (fun n k hk => ?_) h.owned fun k i hk => ?_
    · exact h.watched n k ((Session.watches_removeWatch ..).mp hk).2
    · rw [FanoutBus.streamsOf_unsubscribe] at hk
      split_ifs at hk
      · exact absurd rfl hk
      · exact h.subscribed k i hk
  | @commit srv session call hwrite hvalid =>
    refine h.fixed hfixed h.watched h.owned fun k i hk => h.subscribed k i fun hnil => hk ?_
    have hsub := srv.streamsOf_commit_sublist session call k i
    rw [hnil] at hsub
    exact sublist_nil.mp hsub
  | own hwrite =>
    refine h.fixed hfixed (fun n k hk => h.watched n k ?_) (fun entry hentry => ?_) h.subscribed
    · rw [Session.addPresence] at hk
      split_ifs at hk <;> exact hk
    · rcases Session.mem_addPresence.mp hentry with hentry | rfl
      · exact h.owned entry hentry
      · exact h.writes _ hwrite
  | @cleanup srv session entry e howned he =>
    refine h.fixed hfixed h.watched h.owned fun k i hk => h.subscribed k i fun hnil => hk ?_
    have hsub := srv.streamsOf_cleanup_sublist entry k i
    rw [hnil] at hsub
    exact sublist_nil.mp hsub
  | notice | stateInit | replay =>
    exact h.fixed hfixed h.watched h.owned h.subscribed

theorem Permitted.refl (id : String) (srv : SodpServer) :
    Permitted mayRead mayWrite id srv [] srv :=
  ⟨by simp, fun _ => ⟨[], by simp⟩⟩

variable {id : String} {srv srv' : SodpServer}

theorem Permitted.trans {mid : SodpServer} {more : List Call}
    (h : Permitted mayRead mayWrite id srv calls mid) (hmid : mid.state = srv.state.execAll calls)
    (h' : Permitted mayRead mayWrite id mid more srv') :
    Permitted mayRead mayWrite id srv (calls ++ more) srv' where
  writes call hcall := (mem_append.mp hcall).elim (h.writes call) (h'.writes call)
  reads i := by
    obtain ⟨sent, hqueue, hsent⟩ := h.reads i
    obtain ⟨sent', hqueue', hsent'⟩ := h'.reads i
    refine ⟨sent ++ sent', by rw [hqueue', hqueue, append_assoc], fun msg hmsg hstate => ?_⟩
    rcases mem_append.mp hmsg with hmsg | hmsg
    · obtain ⟨k, hk, hread⟩ := hsent msg hmsg hstate
      exact ⟨k, hk.mono more, hread⟩
    · obtain ⟨k, hk, hread⟩ := hsent' msg hmsg hstate
      rw [hmid] at hk
      exact ⟨k, hk.after, hread⟩

theorem Permitted.send {msg : OutboundMsg}
    (hmsg : msg.aboutState = true → ∃ k, msg.Carries srv.state [] k ∧ mayRead id k) :
    Permitted mayRead mayWrite id srv [] (srv.send id msg) where
  writes := by simp
  reads i := by
    by_cases hi : i = id
    · subst hi
      simp only [SodpServer.send, Handles.send_self, WriteHandle.queue_send]
      refine ⟨_, rfl, fun m hm => ?_⟩
      split_ifs at hm
      · rw [mem_singleton.mp hm]
        exact hmsg
      · cases hm
    · simp only [SodpServer.send, Handles.send_of_ne _ hi]
      exact ⟨[], by simp⟩

theorem mem_issue_of_opsOf {s : StateStore} {call : Call} (h : s.opsOf call ≠ []) :
    (call.key, s.globalVersion + 1, s.opsOf call) ∈ s.issue call := by
  rcases exec_result s call with ⟨-, -, hexec⟩ | ⟨-, hresult⟩
  · rw [opsOf, hexec] at h
    exact absurd rfl h
  · rw [mem_issue, opsOf_eq_stepOps, hresult]
    exact ⟨rfl, rfl⟩

theorem Permitted.issued {call : Call} {streams : String → List ℕ}
    (hwrite : mayWrite id call.key) (hread : ∀ i, streams i ≠ [] → mayRead i call.key)
    (hqueue : ∀ i, ∃ sent, sent.Sublist
      (if srv.state.opsOf call = [] then [] else (streams i).map fun sid =>
        OutboundMsg.delta sid 0 (srv.state.globalVersion + 1) (srv.state.opsOf call)) ∧
          (srv'.handles i).queue = (srv.handles i).queue ++ sent) :
    Permitted mayRead mayWrite id srv [call] srv' where
  writes c hc := (mem_singleton.mp hc) ▸ hwrite
  reads i := by
    obtain ⟨sent, hsub, hsent⟩ := hqueue i
    refine ⟨sent, hsent, fun msg hmsg _ => ?_⟩
    have hmem := hsub.subset hmsg
    split_ifs at hmem with hops
    · cases hmem
    · obtain ⟨sid, hsid, rfl⟩ := mem_map.mp hmem
      refine ⟨call.key, .inr ?_, hread i (ne_nil_of_mem hsid)⟩
      rw [issuedBy, mem_append]
      exact .inl (mem_issue_of_opsOf hops)

theorem Effect.permitted (heffect : Effect ended acc calls acc')
    (h : Granted mayRead mayWrite acc) :
    Permitted mayRead mayWrite acc.2.id acc.1 calls acc'.1 := by
  cases heffect with
  | adjust | openStream | closeStream | own =>
    exact ⟨by simp, fun _ => ⟨[], (append_nil _).symm, by simp⟩⟩
  | notice hmsg => exact .send (by simp [hmsg])
  | @stateInit srv session k streamId seq params hread =>
    refine .send fun _ => ⟨k, ⟨rfl, [], nil_prefix, ?_⟩, h.reads k hread⟩
    exact srv.readEntry_value k
  | @replay srv session k d streamId seq hread hheld =>
    exact .send fun _ => ⟨k, .inl hheld, h.reads k hread⟩
  | @commit srv session call hwrite hvalid =>
    refine .issued (h.writes _ hwrite) (fun i hi => ?_) (srv.commit_sublist session call)
    rw [reached] at hi
    split_ifs at hi with hown
    · rw [hown]
      obtain ⟨sid, hsid⟩ := Option.ne_none_iff_exists'.mp (mt Option.toList_eq_nil_iff.mpr hi)
      exact h.watched sid _ (Session.watches_of_watchStreamId hsid)
    · exact h.subscribed _ i hi
  | @cleanup srv session entry e howned he =>
    exact .issued (h.owned entry howned) (fun i hi => h.subscribed _ i hi) (cleanup_sublist he)

theorem Effects.permitted (heffects : Effects ended acc calls acc')
    (h : Granted mayRead mayWrite acc) : Granted mayRead mayWrite acc' ∧
      Permitted mayRead mayWrite acc.2.id acc.1 calls acc'.1 := by
  induction heffects with
  | refl => exact ⟨h, .refl _ _⟩
  | head hstep _ ih =>
    obtain ⟨hgranted, hpermitted⟩ := ih (hstep.granted h)
    refine ⟨hgranted, (hstep.permitted h).trans hstep.state ?_⟩
    rw [← hstep.fixed.id]
    exact hpermitted

end SodpServer

namespace Sessions
open SodpServer

theorem get_execAll_of_ne {s : StateStore} {calls : List Call} {k : String}
    (h : ∀ call ∈ calls, call.key ≠ k) : (s.execAll calls).get k = s.get k := by
  induction calls generalizing s with
  | nil => rfl
  | cons call calls ih =>
    rw [forall_mem_cons] at h
    refine (ih (s := (s.exec call).1) h.2).trans ?_
    rw [get_exec, get_touch, if_neg h.1.symm]

structure Authorized (mayRead mayWrite : String → String → Prop) (c : Sessions) : Prop where
  watched : ∀ i session, c.session i = some session →
    ∀ streamId k, session.Watches streamId k → mayRead i k
  owned : ∀ i session, c.session i = some session →
    ∀ entry ∈ session.presence, mayWrite i entry.stateKey
  subscribed : ∀ k i, c.server.fanout.streamsOf k i ≠ [] → mayRead i k

section Rights
variable (acl : AclRegistry) (identity : String → Identity)

def mayRead (i k : String) : Prop := acl.canRead k (identity i).sub (identity i).claims = true

def mayWrite (i k : String) : Prop := acl.canWrite k (identity i).sub (identity i).claims = true

end Rights

variable {acl : AclRegistry} {identity : String → Identity} {schema : Option SchemaRegistry}
  {c c' : Sessions} {e : Event}

theorem Authorized.granted {session : Session} {i : String}
    (h : Authorized (mayRead acl identity) (mayWrite acl identity) c)
    (hid : Identified identity (some acl) schema c) (hsession : c.session i = some session) :
    Granted (mayRead acl identity) (mayWrite acl identity) (c.server, session) := by
  obtain ⟨hi, hsub, hclaims⟩ := hid.session i session hsession
  subst hi
  refine ⟨fun k hk => ?_, fun k hk => ?_, h.watched _ session hsession,
    h.owned _ session hsession, h.subscribed⟩
  · rw [canRead, hid.acl, Option.all_some, hsub, hclaims] at hk
    exact hk
  · rw [canWrite, hid.acl, Option.all_some, hsub, hclaims] at hk
    exact hk

variable {server : SodpServer}

theorem Authorized.setSession {mayRead mayWrite : String → String → Prop}
    (h : Authorized mayRead mayWrite c) {i : String} {own : Option Session}
    (hwatched : ∀ session, own = some session →
      ∀ streamId k, session.Watches streamId k → mayRead i k)
    (howned : ∀ session, own = some session → ∀ entry ∈ session.presence, mayWrite i entry.stateKey)
    (hsubscribed : ∀ k j, server.fanout.streamsOf k j ≠ [] → mayRead j k) :
    Authorized mayRead mayWrite (c.setSession i server own) := by
  have hcases : ∀ {j session}, (c.setSession i server own).session j = some session →
      (j = i ∧ own = some session) ∨ c.session j = some session := by
    intro j session hj
    by_cases hji : j = i
    · subst hji
      exact .inl ⟨rfl, by simpa [Sessions.setSession] using hj⟩
    · exact .inr (by simpa [Sessions.setSession, hji] using hj)
  refine ⟨fun j session hj => ?_, fun j session hj => ?_, hsubscribed⟩
  · rcases hcases hj with ⟨rfl, hown⟩ | hj
    · exact hwatched session hown
    · exact h.watched j session hj
  · rcases hcases hj with ⟨rfl, hown⟩ | hj
    · exact howned session hown
    · exact h.owned j session hj

theorem Authorized.step (h : Authorized (mayRead acl identity) (mayWrite acl identity) c)
    (hid : Identified identity (some acl) schema c) (hstep : Sessions.step identity c e = some c') :
    Authorized (mayRead acl identity) (mayWrite acl identity) c' ∧
    (∀ call ∈ c.calls e, mayWrite acl identity e.session call.key) ∧
    ∀ i, ∃ sent, (c'.server.handles i).queue <:+ (c.server.handles i).queue ++ sent ∧
      ∀ msg ∈ sent, msg.aboutState = true →
        ∃ k, msg.Carries c.server.state (c.calls e) k ∧ mayRead acl identity i k := by
  rcases step_cases hstep with ⟨-, hcalls, rfl⟩ | ⟨session, _, acc, hsession, -, -, heffects, rfl⟩ |
    ⟨hcalls, rfl⟩ | ⟨session, cleaned, hsession, -, heffects, rfl⟩
  · refine ⟨h.setSession ?_ ?_ h.subscribed, by simp [hcalls], fun i => ⟨[], ?_, by simp⟩⟩
    · rintro session ⟨⟩ streamId k ⟨entry, hentry, -⟩
      simp [accept, Session.new] at hentry
    · rintro session ⟨⟩ entry hentry
      simp [accept, Session.new] at hentry
    · by_cases hi : i = e.session
      · subst hi
        simp [join, accept, Sessions.setSession]
      · simp [join, accept, Sessions.setSession, hi]
  · have hi := (hid.session _ _ hsession).1
    obtain ⟨hgranted, hpermitted⟩ := heffects.permitted (h.granted hid hsession)
    have hacc : acc.2.id = e.session := heffects.fixed.id.trans hi
    rw [← hi]
    refine ⟨h.setSession ?_ ?_ hgranted.subscribed, hpermitted.writes, fun i => ?_⟩
    · rintro own ⟨⟩
      rw [hi, ← hacc]
      exact hgranted.watched
    · rintro own ⟨⟩
      rw [hi, ← hacc]
      exact hgranted.owned
    · obtain ⟨sent, hqueue, hsent⟩ := hpermitted.reads i
      exact ⟨sent, hqueue ▸ suffix_refl _, hsent⟩
  · refine ⟨⟨h.watched, h.owned, h.subscribed⟩, by simp [hcalls], fun i => ⟨[], ?_, by simp⟩⟩
    by_cases hi : i = e.session
    · subst hi
      simpa [Network.dequeue] using tail_suffix _
    · simp [Network.dequeue, hi]
  · have hi := (hid.session _ _ hsession).1
    obtain ⟨hgranted, hpermitted⟩ := heffects.permitted (h.granted hid hsession)
    rw [← hi]
    refine ⟨h.setSession (by simp) (by simp) fun k j hk => ?_, hpermitted.writes, fun i => ?_⟩
    · rw [FanoutBus.streamsOf_removeSession] at hk
      split_ifs at hk
      · exact absurd rfl hk
      · exact hgranted.subscribed k j hk
    · obtain ⟨sent, hqueue, hsent⟩ := hpermitted.reads i
      exact ⟨sent, hqueue ▸ suffix_refl _, hsent⟩

theorem authorized_start {mayRead mayWrite : String → String → Prop}
    (hfanout : server.fanout = .new) : Authorized mayRead mayWrite (start server) := by
  refine ⟨?_, ?_, fun k i hk => ?_⟩
  · rintro i session ⟨⟩
  · rintro i session ⟨⟩
  rw [start, hfanout, FanoutBus.streamsOf, FanoutBus.subscribersOf_new] at hk
  exact absurd rfl hk

/-- In every state that a server can reach, an event changes only keys that its session
may write, and only puts messages about readable keys into the queues. -/
theorem authorization_sound {server : SodpServer} (hacl : server.acl = some acl)
    (hfanout : server.fanout = .new) {events : List Event}
    (hrun : run (Sessions.step identity) (start server) events = some c)
    (hstep : Sessions.step identity c e = some c') :
    (∀ k, c'.server.state.get k ≠ c.server.state.get k →
      acl.canWrite k (identity e.session).sub (identity e.session).claims = true) ∧
    ∀ i, ∃ sent, (c'.server.handles i).queue <:+ (c.server.handles i).queue ++ sent ∧ ∀ msg ∈ sent,
        (msg.aboutState = true → ∃ k, msg.Carries c.server.state (c.calls e) k ∧
          acl.canRead k (identity i).sub (identity i).claims = true) ∧
        (server.state.KeyedVersions → ∀ k, msg.Carries c.server.state (c.calls e) k →
          acl.canRead k (identity i).sub (identity i).claims = true) := by
  have hinv : Identified identity (some acl) server.schema c ∧
      Authorized (mayRead acl identity) (mayWrite acl identity) c ∧
      (server.state.KeyedVersions → c.server.state.KeyedVersions) := by
    refine invariant (I := fun c => Identified identity (some acl) server.schema c ∧
      Authorized (mayRead acl identity) (mayWrite acl identity) c ∧
      (server.state.KeyedVersions → c.server.state.KeyedVersions)) ?_ ?_ hrun
    · rintro c e c' ⟨hid, hauth, hkeyed⟩ h
      refine ⟨hid.step h, (hauth.step hid h).1, fun hserver => ?_⟩
      rw [state_step h]
      exact (hkeyed hserver).execAll _
    · have hid := Identified.start identity server
      rw [hacl] at hid
      exact ⟨hid, authorized_start hfanout, id⟩
  obtain ⟨hid, hauth, hkeyed⟩ := hinv
  obtain ⟨-, hwrites, hreads⟩ := hauth.step hid hstep
  refine ⟨fun k hk => ?_, fun i => ?_⟩
  · by_contra hforbidden
    refine hk ?_
    rw [state_step hstep]
    refine get_execAll_of_ne fun call hcall hkey => hforbidden ?_
    exact hkey ▸ hwrites call hcall
  · obtain ⟨sent, hqueue, hsent⟩ := hreads i
    refine ⟨sent, hqueue, fun msg hmsg => ⟨hsent msg hmsg, fun hserver k hk => ?_⟩⟩
    obtain ⟨j, hj, hread⟩ := hsent msg hmsg hk.aboutState
    rw [hk.key_unique (hkeyed hserver) hj]
    exact hread

/-! ### A run -/

def ownerRules : AclRegistry where
  canRead k sub _ := k = "public" ∨ sub = some "owner"
  canWrite _ sub _ := sub = some "owner"

def ownerAndGuest (i : String) : Identity := ⟨some (if i = "a" then "owner" else "guest"), .null⟩

def guardedServer : SodpServer := { SodpServer.new with acl := some ownerRules }

def guestWatches : List Event :=
  [⟨"a", 0, .connect⟩, ⟨"b", 0, .connect⟩, ⟨"b", 0, .frame (watchFrame ["private", "public"])⟩,
    ⟨"a", 0, .frame (presenceFrame "private" "/x" .null)⟩,
    ⟨"a", 0, .frame (presenceFrame "public" "/x" .null)⟩]

theorem authorization_sound_guest :
    ∃ c c', run (Sessions.step ownerAndGuest) (start guardedServer) guestWatches = some c ∧
      Sessions.step ownerAndGuest c ⟨"a", 0, .disconnect⟩ = some c' ∧
      c'.server.state.valueOf "public" ≠ c.server.state.valueOf "public" ∧
      (c.server.handles "b").queue.length = 3 ∧ (c'.server.handles "b").queue.length = 4 ∧
      ∀ i, ∃ sent, (c'.server.handles i).queue <:+ (c.server.handles i).queue ++ sent ∧
        ∀ msg ∈ sent, ∀ k, msg.Carries c.server.state (c.calls ⟨"a", 0, .disconnect⟩) k →
          ownerRules.canRead k (ownerAndGuest i).sub (ownerAndGuest i).claims = true := by
  obtain ⟨c, hc, c', hc', hvalue, hbefore, hafter⟩ : ∃ c ∈ run (Sessions.step ownerAndGuest)
      (start guardedServer) guestWatches,
      ∃ c' ∈ Sessions.step ownerAndGuest c ⟨"a", 0, .disconnect⟩,
        c'.server.state.valueOf "public" ≠ c.server.state.valueOf "public" ∧
        (c.server.handles "b").queue.length = 3 ∧ (c'.server.handles "b").queue.length = 4 := by
    decide +kernel
  refine ⟨c, c', hc, hc', hvalue, hbefore, hafter, fun i => ?_⟩
  obtain ⟨sent, hqueue, hsent⟩ := (authorization_sound rfl rfl hc hc').2 i
  exact ⟨sent, hqueue, fun msg hmsg => (hsent msg hmsg).2 keyedVersions_new⟩

end Sessions

end Sodp
