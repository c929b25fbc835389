import Sodp.SessionRuns

/-!
# The watch table and the registry

A subscription is kept twice: in the watch table of its session, by stream, and in the registry, by
key. UNWATCH takes one stream of a key out of the table and all streams of the session and the key
out of the registry. A session that is evicted loses subscriptions in the registry alone.
-/

namespace Sodp

namespace SodpServer
open StateStore List

structure Agrees (acc : SodpServer × Session) : Prop where
  fresh : ∀ streamId k, acc.2.Watches streamId k → streamId < acc.2.nextStreamId
  streams : ∀ streamId k, acc.2.Watches streamId k ↔
    streamId ∈ acc.1.fanout.streamsOf k acc.2.id

structure LeavesOthers (acc acc' : SodpServer × Session) : Prop where
  cancelled : ∀ i, (acc.1.handles i).cancelled = true → (acc'.1.handles i).cancelled = true
  sublist : ∀ k i, i ≠ acc.2.id →
    (acc'.1.fanout.streamsOf k i).Sublist (acc.1.fanout.streamsOf k i)
  streams : ∀ k i, i ≠ acc.2.id → (acc'.1.handles i).cancelled = false →
    acc'.1.fanout.streamsOf k i = acc.1.fanout.streamsOf k i

namespace LeavesOthers
variable {acc mid acc' : SodpServer × Session}

theorem opened (h : LeavesOthers acc acc') {i : String}
    (hopen : (acc'.1.handles i).cancelled = false) :
    (acc.1.handles i).cancelled = false := by
  by_contra hc
  rw [h.cancelled i (by simpa using hc)] at hopen
  cases hopen

theorem refl (acc : SodpServer × Session) : LeavesOthers acc acc :=
  ⟨fun _ h => h, fun _ _ _ => List.Sublist.refl _, fun _ _ _ _ => rfl⟩

theorem trans (h : LeavesOthers acc mid) (h' : LeavesOthers mid acc') (hid : mid.2.id = acc.2.id) :
    LeavesOthers acc acc' where
  cancelled i hi := h'.cancelled i (h.cancelled i hi)
  sublist k i hi := (h'.sublist k i (hid ▸ hi)).trans (h.sublist k i hi)
  streams k i hi hopen :=
    (h'.streams k i (hid ▸ hi) hopen).trans (h.streams k i hi (h'.opened hopen))

theorem of_streams (hhandles : acc'.1.handles = acc.1.handles)
    (hstreams : ∀ k i, i ≠ acc.2.id →
      acc'.1.fanout.streamsOf k i = acc.1.fanout.streamsOf k i) : LeavesOthers acc acc' where
  cancelled i hi := by rwa [hhandles]
  sublist k i hi := by rw [hstreams k i hi]
  streams k i hi _ := hstreams k i hi

theorem send (srv : SodpServer) (session : Session) (msg : OutboundMsg) :
    LeavesOthers (srv, session) (srv.send session.id msg, session) :=
  ⟨fun _ hi => send_cancelled hi _ _, fun _ _ _ => List.Sublist.refl _, fun _ _ _ _ => rfl⟩

end LeavesOthers

variable {acc acc' : SodpServer × Session} {calls : List Call} {srv : SodpServer}
  {session : Session} {ended : List String}

theorem Effect.leavesOthers (h : Effect ended acc calls acc') :
    LeavesOthers acc acc' := by
  cases h with
  | adjust | own => exact ⟨fun _ h => h, fun _ _ _ => List.Sublist.refl _, fun _ _ _ _ => rfl⟩
  | notice | stateInit | replay => exact .send ..
  | openStream =>
    refine .of_streams rfl fun k i hi => ?_
    rw [SodpServer.openStream, FanoutBus.streamsOf_subscribe, if_neg fun h => hi h.2, append_nil]
  | closeStream =>
    refine .of_streams rfl fun k i hi => ?_
    rw [FanoutBus.streamsOf_unsubscribe, if_neg fun h => hi h.2]
  | @commit srv session call hwrite hvalid =>
    exact ⟨fun i hi => commit_cancelled hi,
      fun k i _ => srv.streamsOf_commit_sublist session call k i,
      fun k i _ hopen => (commit_of_open hopen).1 k⟩
  | @cleanup srv session entry e howned he =>
    exact ⟨fun i hi => cleanup_cancelled hi, fun k i _ => srv.streamsOf_cleanup_sublist entry k i,
      fun k i _ hopen => (cleanup_of_open he hopen).1 k⟩

theorem Effects.leavesOthers (h : Effects ended acc calls acc') :
    LeavesOthers acc acc' := by
  induction h with
  | refl acc => exact .refl acc
  | head hstep _ ih => exact hstep.leavesOthers.trans ih hstep.fixed.id

/-! ### The acting session -/

theorem Agrees.of_standing {session' : Session} (h : Agrees (srv, session))
    (hsame : session.SameStanding session') : Agrees (srv, session') where
  fresh n k hk := by
    rw [hsame.nextStreamId]
    exact h.fresh n k ((hsame.watches n k).mp hk)
  streams n k := by
    rw [hsame.watches, hsame.id]
    exact h.streams n k

theorem Agrees.openStream (h : Agrees (srv, session)) (k : String) (params : Option Value) :
    Agrees (srv.openStream session k params) where
  fresh n j hj := by
    rw [SodpServer.openStream, Session.watches_addWatch] at hj
    split_ifs at hj with hn
    · exact hn ▸ Nat.lt_succ_self _
    · exact Nat.lt_succ_of_lt (h.fresh n j hj)
  streams n j := by
    have hold : session.Watches n j ↔ n ∈ srv.fanout.streamsOf j session.id := h.streams n j
    rw [SodpServer.openStream, Session.watches_addWatch, FanoutBus.streamsOf_subscribe, mem_append]
    change (if n = session.nextStreamId then j = k else session.Watches n j) ↔
      n ∈ srv.fanout.streamsOf j session.id ∨
        n ∈ if j = k ∧ session.id = session.id then [session.nextStreamId] else []
    rw [← hold]
    by_cases hn : n = session.nextStreamId
    · have hfree : ¬ session.Watches n j := fun hw => by
        have hlt := h.fresh n j hw
        rw [hn] at hlt
        exact lt_irrefl _ hlt
      by_cases hj : j = k
      · simp [hn, hj]
      · simpa [hn, hj] using hn ▸ hfree
    · by_cases hj : j = k <;> simp [hn, hj]

theorem Effect.agrees (h : Effect [] acc calls acc') (hagrees : Agrees acc)
    (hopen : (acc'.1.handles acc.2.id).cancelled = false) : Agrees acc' := by
  cases h with
  | adjust hsame => exact hagrees.of_standing hsame
  | notice | stateInit | replay => exact ⟨hagrees.fresh, hagrees.streams⟩
  | openStream params => exact hagrees.openStream _ params
  | closeStream hended => cases hended
  | commit =>
    refine ⟨hagrees.fresh, fun n k => ?_⟩
    rw [(commit_of_open hopen).1 k]
    exact hagrees.streams n k
  | @own srv session entry hwrite =>
    have hsame := session.sameTable_addPresence entry.stateKey entry.path
    refine ⟨fun n k hk => ?_, fun n k => ?_⟩
    · rw [hsame.nextStreamId]
      exact hagrees.fresh n k ((hsame.watches_iff n k).mp hk)
    · rw [hsame.watches_iff, hsame.id]
      exact hagrees.streams n k
  | cleanup howned he =>
    refine ⟨hagrees.fresh, fun n k => ?_⟩
    rw [(cleanup_of_open he hopen).1 k]
    exact hagrees.streams n k

theorem Effects.agrees (h : Effects [] acc calls acc') (hagrees : Agrees acc)
    (hopen : (acc'.1.handles acc.2.id).cancelled = false) : Agrees acc' := by
  generalize hended : ([] : List String) = ended at h
  induction h with
  | refl => exact hagrees
  | head hstep hrest ih =>
    subst hended
    refine ih (hstep.agrees hagrees (hrest.leavesOthers.opened hopen)) ?_
    rw [hstep.fixed.id]
    exact hopen

/-! ### UNWATCH -/

theorem watches_of_unwatchKey {k j : String} {n : ℕ}
    (h : (SodpServer.unwatchKey acc k).2.Watches n j) : acc.2.Watches n j := by
  rw [SodpServer.unwatchKey] at h
  cases hid : acc.2.watchStreamId k with
  | none => rwa [hid] at h
  | some =>
    rw [hid] at h
    exact ((Session.watches_removeWatch ..).mp h).2

theorem Agrees.unwatchKey (h : Agrees acc) {k : String}
    (hone : ∀ a b, acc.2.Watches a k → acc.2.Watches b k → a = b) :
    Agrees (SodpServer.unwatchKey acc k) := by
  have hsub : ∀ n j, (SodpServer.unwatchKey acc k).2.Watches n j → acc.2.Watches n j :=
    fun _ _ => watches_of_unwatchKey
  rw [SodpServer.unwatchKey] at hsub ⊢
  cases hid : acc.2.watchStreamId k with
  | none => exact h
  | some streamId =>
    rw [hid] at hsub
    have hw := Session.watches_of_watchStreamId hid
    refine ⟨fun n j hj => h.fresh n j (hsub n j hj), fun n j => ?_⟩
    rw [Session.watches_removeWatch]
    change _ ↔ n ∈ (acc.1.fanout.unsubscribe k acc.2.id).streamsOf j acc.2.id
    rw [FanoutBus.streamsOf_unsubscribe]
    split_ifs with hj
    · obtain ⟨rfl, -⟩ := hj
      simp only [not_mem_nil, iff_false, not_and]
      exact fun hn hw' => hn (hone n streamId hw' hw)
    · rw [← h.streams, and_iff_right_iff_imp]
      rintro hj' rfl
      exact hj ⟨hj'.key_unique hw, rfl⟩

theorem Agrees.unwatchAll {keys : List String} (h : Agrees acc)
    (hone : ∀ k ∈ keys, ∀ a b, acc.2.Watches a k → acc.2.Watches b k → a = b) :
    Agrees (keys.foldl SodpServer.unwatchKey acc) := by
  induction keys generalizing acc with
  | nil => exact h
  | cons k keys ih =>
    rw [forall_mem_cons] at hone
    refine ih (h.unwatchKey hone.1) fun j hj a b ha hb => ?_
    exact hone.2 j hj a b (watches_of_unwatchKey ha) (watches_of_unwatchKey hb)

theorem Agrees.handleFrame {frame : Frame} {now : ℕ} (h : Agrees (srv, session))
    (hone : ∀ k ∈ unwatchedKeys frame, ∀ a b, session.Watches a k → session.Watches b k → a = b)
    (hopen : ((srv.handleFrame session frame now).1.handles session.id).cancelled = false) :
    Agrees (srv.handleFrame session frame now) := by
  by_cases htype : frame.frameType = .unwatch
  · rw [unwatchedKeys, if_pos htype] at hone
    rw [SodpServer.handleFrame, htype]
    rw [handleUnwatch]
    cases hkeys : requestedKeys frame.body with
    | none => exact h
    | some =>
      rw [hkeys] at hone
      exact h.unwatchAll hone
  · have heffects := srv.handleFrame_effects session frame now
    rw [unwatchedKeys, if_neg htype] at heffects
    exact heffects.agrees h hopen

end SodpServer

namespace Sessions
open SodpServer

structure TablesAgree (c : Sessions) : Prop where
  absent : ∀ i, c.session i = none → ∀ k, c.server.fanout.streamsOf k i = []
  agrees : ∀ i session, c.session i = some session → (c.server.handles i).cancelled = false →
    Agrees (c.server, session)

/-- An UNWATCH names no key that its session watches on several streams. -/
def SingleUnwatch (c : Sessions) (e : Event) : Prop :=
  match e.input, c.session e.session with
  | .frame frame, some session => ∀ k ∈ unwatchedKeys frame, ∀ a b,
      session.Watches a k → session.Watches b k → a = b
  | _, _ => True

instance decidableSingleUnwatch (c : Sessions) (e : Event) : Decidable (c.SingleUnwatch e) := by
  have hone : ∀ (session : Session) (k : String), Decidable (∀ a b,
      session.Watches a k → session.Watches b k → a = b) := fun session k =>
    decidable_of_iff (∀ x ∈ session.watches.toList, ∀ y ∈ session.watches.toList,
        x.2.stateKey = k → y.2.stateKey = k → x.1 = y.1) <| by
      constructor
      · rintro h a b ⟨x, hx, rfl⟩ ⟨y, hy, hkey⟩
        exact h (a, x) ((OrderedMap.mem_toList ..).mpr hx) (b, y)
          ((OrderedMap.mem_toList ..).mpr hy) rfl hkey
      · intro h x hx y hy hkx hky
        exact h x.1 y.1 ⟨x.2, (OrderedMap.mem_toList ..).mp hx, hkx⟩
          ⟨y.2, (OrderedMap.mem_toList ..).mp hy, hky⟩
  unfold SingleUnwatch
  split <;> infer_instance

section Step
variable {identity : String → Identity} {acl : Option AclRegistry}
  {schema : Option SchemaRegistry} {c c' : Sessions} {e : Event}

theorem TablesAgree.setSession (h : TablesAgree c) (hid : Identified identity acl schema c)
    {i : String} {session : Session} (hsession : c.session i = some session)
    {acc : SodpServer × Session} (hothers : LeavesOthers (c.server, session) acc)
    {own : Option Session}
    (habsent : own = none → ∀ k, acc.1.fanout.streamsOf k i = [])
    (hagrees : ∀ session', own = some session' → (acc.1.handles i).cancelled = false →
      Agrees (acc.1, session')) : TablesAgree (c.setSession i acc.1 own) := by
  obtain ⟨rfl, -⟩ := hid.session i session hsession
  refine ⟨fun j hj k => ?_, fun j other hj hopen => ?_⟩
  · by_cases hji : j = session.id
    · subst hji
      exact habsent (by simpa [Sessions.setSession] using hj) k
    · have hnone : c.session j = none := by simpa [Sessions.setSession, hji] using hj
      have hsub := hothers.sublist k j hji
      rw [h.absent j hnone k] at hsub
      exact List.sublist_nil.mp hsub
  · by_cases hji : j = session.id
    · subst hji
      exact hagrees other (by simpa [Sessions.setSession] using hj) hopen
    · have hother : c.session j = some other := by simpa [Sessions.setSession, hji] using hj
      obtain ⟨rfl, -⟩ := hid.session j other hother
      have hold := h.agrees _ other hother (hothers.opened hopen)
      refine ⟨hold.fresh, fun n k => ?_⟩
      change other.Watches n k ↔ n ∈ acc.1.fanout.streamsOf k other.id
      rw [hothers.streams k other.id hji hopen]
      exact hold.streams n k

theorem TablesAgree.step (h : TablesAgree c) (hid : Identified identity acl schema c)
    (hsingle : c.SingleUnwatch e) (hstep : Sessions.step identity c e = some c') :
    TablesAgree c' := by
  rcases step_cases hstep with ⟨hnone, -, rfl⟩ |
    ⟨session, frame, acc, hsession, hinput, rfl, heffects, rfl⟩ | ⟨-, rfl⟩ |
    ⟨session, cleaned, hsession, -, heffects, rfl⟩
  · refine ⟨fun j hj => h.absent j ?_, fun j session hj hopen => ?_⟩
    · by_cases hje : j = e.session
      · rw [hje]
        exact hnone
      · simpa [join, Sessions.setSession, hje] using hj
    · by_cases hje : j = e.session
      · subst hje
        obtain rfl : _ = session := by simpa [join, Sessions.setSession] using hj
        refine ⟨fun n k hk => ?_, fun n k => ?_⟩
        · simp [Session.Watches, accept, Session.new] at hk
        · have habsent : c.server.fanout.streamsOf k e.session = [] := h.absent _ hnone k
          simp [Session.Watches, accept, Session.new, join, Sessions.setSession, habsent]
      · have hsession : c.session j = some session := by
          simpa [join, Sessions.setSession, hje] using hj
        have hopen' : (c.server.handles j).cancelled = false := by
          simpa [join, Sessions.setSession, accept, hje] using hopen
        exact ⟨(h.agrees j session hsession hopen').fresh,
          (h.agrees j session hsession hopen').streams⟩
  · refine h.setSession hid hsession heffects.leavesOthers (by simp) ?_
    rintro session' ⟨⟩ hopen
    rw [SingleUnwatch, hinput, hsession] at hsingle
    obtain ⟨hi, -⟩ := hid.session _ _ hsession
    rw [← hi] at hopen hsession
    exact (h.agrees _ session hsession (heffects.leavesOthers.opened hopen)).handleFrame
      hsingle hopen
  · refine ⟨h.absent, fun j session hj hopen => ?_⟩
    have hopen' : (c.server.handles j).cancelled = false := by
      by_cases hje : j = e.session
      · subst hje
        simpa [Network.dequeue] using hopen
      · simpa [Network.dequeue, hje] using hopen
    exact ⟨(h.agrees j session hj hopen').fresh, (h.agrees j session hj hopen').streams⟩
  · obtain ⟨hi, -⟩ := hid.session _ _ hsession
    have hremoved : LeavesOthers (cleaned, session)
        ({ cleaned with fanout := cleaned.fanout.removeSession session.id }, session) := by
      refine .of_streams rfl fun k i hi => ?_
      rw [FanoutBus.streamsOf_removeSession, if_neg hi]
    refine h.setSession hid hsession (heffects.leavesOthers.trans hremoved rfl) (fun _ k => ?_)
      (by simp)
    rw [FanoutBus.streamsOf_removeSession, if_pos hi.symm]

end Step

theorem tablesAgree_start {server : SodpServer} (hfanout : server.fanout = .new) :
    TablesAgree (start server) := by
  refine ⟨fun i _ k => ?_, ?_⟩
  · rw [start, hfanout, FanoutBus.streamsOf, FanoutBus.subscribersOf_new]
    rfl
  · rintro i session ⟨⟩

/-- The table of a session that was not evicted and the registry agree, as long as UNWATCH
never finds a key on several streams. -/
theorem watch_table_agrees {identity : String → Identity} {server : SodpServer}
    (hfanout : server.fanout = .new) {events : List Event} {c : Sessions}
    (hsingle : Transition.Along (step identity) SingleUnwatch (start server) events)
    (hrun : Transition.run (step identity) (start server) events = some c) {i : String}
    {session : Session} (hsession : c.session i = some session)
    (hopen : (c.server.handles i).cancelled = false) (streamId : ℕ) (k : String) :
    (∃ entry, session.watches.get? streamId = some entry ∧ entry.stateKey = k) ↔
      ⟨i, streamId⟩ ∈ c.server.fanout.subscribersOf k := by
  have hinv : Identified identity server.acl server.schema c ∧ TablesAgree c := by
    refine Transition.invariant_along (I := fun c =>
      Identified identity server.acl server.schema c ∧ TablesAgree c) ?_ ?_ hsingle hrun
    · exact fun c e c' h hok hstep => ⟨h.1.step hstep, h.2.step h.1 hok hstep⟩
    · exact ⟨.start identity server, tablesAgree_start hfanout⟩
  obtain ⟨rfl, -⟩ := hinv.1.session i session hsession
  rw [← FanoutBus.mem_streamsOf]
  exact (hinv.2.agrees _ session hsession hopen).streams streamId k

/-! ### Runs -/

def giveUp (frames : List Frame) : List Event :=
  [⟨"a", 0, .connect⟩, ⟨"b", 0, .connect⟩, ⟨"b", 0, .frame (watchFrame ["k"])⟩] ++
    frames.map (fun frame => ⟨"a", 0, .frame frame⟩) ++
    [⟨"a", 0, .frame ⟨.unwatch, 0, 0, .ofFields [("state", .string "k")]⟩⟩]

theorem watch_table_agrees_two :
    ∃ c session, Transition.run (step fun _ => ⟨none, .null⟩) (start .new)
        (giveUp [watchFrame ["j", "k"], watchFrame ["j"]]) = some c ∧
      c.session "a" = some session ∧ session.watches.keys = [10, 12] ∧
      ∀ streamId k, (∃ entry, session.watches.get? streamId = some entry ∧ entry.stateKey = k) ↔
        ⟨"a", streamId⟩ ∈ c.server.fanout.subscribersOf k := by
  obtain ⟨c, hc, session, hsession, hkeys, hopen⟩ :
      ∃ c ∈ Transition.run (step fun _ => ⟨none, .null⟩) (start .new)
        (giveUp [watchFrame ["j", "k"], watchFrame ["j"]]), ∃ session ∈ c.session "a",
          session.watches.keys = [10, 12] ∧ (c.server.handles "a").cancelled = false := by
    decide +kernel
  exact ⟨c, session, hc, hsession, hkeys,
    watch_table_agrees rfl (by decide +kernel) hc hsession hopen⟩

/-- A key watched twice and given up once stays in the table and leaves the registry. -/
theorem unwatch_leaves_stream : (Transition.run (step fun _ => ⟨none, .null⟩) (start .new)
        (giveUp [watchFrame ["k"], watchFrame ["k"]])).map (fun c =>
          ((c.session "a").map fun session =>
              session.watches.toList.map fun entry => (entry.1, entry.2.stateKey),
            c.server.fanout.subscribersOf "k", (c.server.handles "a").cancelled)) =
      some (some [(11, "k")], [⟨"b", 10⟩], false) := by
  decide +kernel

end Sessions

end Sodp
