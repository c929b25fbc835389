import Sodp.ClientRequests
import Sodp.HandlerEffects
import Sodp.Linked
import Sodp.Network

/-!
# What the handlers do to the links

`Preserves` says what a handler does to the other sessions: it never reopens a queue, adds no
subscription of theirs, and keeps the link of each that is still open. `Advances` adds that the own
link is kept, if none of the keys it subscribes was watched before. Both compose.
-/

namespace Sodp
open Client StateStore List SodpServer

structure Preserves (s : String) (srv srv' : SodpServer) : Prop where
  cancelled : ∀ t, (srv.handles t).cancelled = true → (srv'.handles t).cancelled = true
  streams : ∀ k t, t ≠ s → (srv'.fanout.streamsOf k t).Sublist (srv.fanout.streamsOf k t)
  linked : ∀ {σ : ℕ → String} {session : Session} {client : SodpClient}, session.id ≠ s →
    (srv'.handles session.id).cancelled = false → Linked σ srv session client →
    Linked σ srv' session client

namespace Preserves

variable {s : String} {srv srv' srv'' : SodpServer}

theorem refl (s : String) (srv : SodpServer) : Preserves s srv srv where
  cancelled _ h := h
  streams _ _ _ := List.Sublist.refl _
  linked _ _ h := h

theorem open_of (h : Preserves s srv srv') {t : String}
    (hopen : (srv'.handles t).cancelled = false) : (srv.handles t).cancelled = false := by
  by_contra hc
  rw [h.cancelled t (by simpa using hc)] at hopen
  cases hopen

theorem trans (h : Preserves s srv srv') (h' : Preserves s srv' srv'') : Preserves s srv srv'' where
  cancelled t hc := h'.cancelled t (h.cancelled t hc)
  streams k t ht := (h'.streams k t ht).trans (h.streams k t ht)
  linked hid hopen hlinked := h'.linked hid hopen (h.linked hid (h'.open_of hopen) hlinked)

theorem of_local
    (hcancelled : ∀ t, (srv.handles t).cancelled = true → (srv'.handles t).cancelled = true)
    (hstreams : ∀ k t, t ≠ s → srv'.fanout.streamsOf k t = srv.fanout.streamsOf k t)
    (hqueue : ∀ t, t ≠ s → (srv'.handles t).cancelled = false →
      (srv'.handles t).queue = (srv.handles t).queue)
    (hstate : srv'.state = srv.state) : Preserves s srv srv' where
  cancelled := hcancelled
  streams k t ht := by rw [hstreams k t ht]
  linked hid hopen hlinked := by
    refine hlinked.silent (fun k => hstreams k _ hid) (m := []) (by simp) ?_ fun k => by rw [hstate]
    rw [hqueue _ hid hopen, append_nil]

end Preserves

structure Advances (keys : List String) (client : SodpClient) (acc acc' : SodpServer × Session) :
    Prop where
  id : acc'.2.id = acc.2.id
  preserves : Preserves acc.2.id acc.1 acc'.1
  linked : (acc'.1.handles acc.2.id).cancelled = false → (∃ σ, Linked σ acc.1 acc.2 client) →
    (∀ k ∈ keys, acc.2.watchStreamId k = none) →
    (∃ σ, Linked σ acc'.1 acc'.2 client) ∧
      ∀ k, k ∉ keys → acc.2.watchStreamId k = none → acc'.2.watchStreamId k = none

namespace Advances

variable {client : SodpClient} {acc acc' acc'' : SodpServer × Session} {keys more : List String}

theorem trans (h : Advances keys client acc acc') (h' : Advances more client acc' acc'')
    (hdisjoint : keys.Disjoint more) : Advances (keys ++ more) client acc acc'' where
  id := h'.id.trans h.id
  preserves := h.preserves.trans (h.id ▸ h'.preserves)
  linked hopen hlinked hnone := by
    have hopen' : (acc''.1.handles acc'.2.id).cancelled = false := by rw [h.id]; exact hopen
    obtain ⟨hmid, hfree⟩ := h.linked (h.id ▸ h'.preserves.open_of hopen') hlinked
      fun k hk => hnone k (mem_append_left _ hk)
    obtain ⟨hend, hfree'⟩ := h'.linked hopen' hmid fun k hk =>
      hfree k (fun hc => hdisjoint hc hk) (hnone k (mem_append_right _ hk))
    refine ⟨hend, fun k hk hkn => ?_⟩
    rw [mem_append, not_or] at hk
    exact hfree' k hk.2 (hfree k hk.1 hkn)

theorem andThen (h : Advances [] client acc acc') (h' : Advances keys client acc' acc'') :
    Advances keys client acc acc'' := h.trans h' (disjoint_nil_left _)

variable {session : Session} {key : String} {frame : Frame}

theorem of_sameTable (h : acc.2.SameTable session) :
    Advances [] client acc (acc.1, session) where
  id := h.id
  preserves := .refl _ _
  linked _ := by
    rintro ⟨σ, hlinked⟩ -
    refine ⟨⟨σ, hlinked.of_sameTable h⟩, fun k _ hk => ?_⟩
    rw [h.watchStreamId, hk]

theorem refl (client : SodpClient) (acc : SodpServer × Session) : Advances [] client acc acc :=
  of_sameTable (.refl _)

theorem reply (srv : SodpServer) (session : Session) {msg : ℕ → OutboundMsg}
    (hmsg : ∀ seq, Silent (msg seq)) (keys : List String) :
    Advances keys client (srv, session) (srv.reply session msg) where
  id := rfl
  preserves := by
    refine .of_local (fun t hc => reply_cancelled hc _) (fun _ _ _ => rfl)
      (fun t ht hopen => ?_) rfl
    rw [reply_of_open hopen, if_neg ht, WriteHandle.push_nil]
  linked hopen := by
    rintro ⟨σ, hlinked⟩ -
    exact ⟨⟨σ, hlinked.reply (hmsg _) hopen⟩, fun k _ hk =>
      ((sameTable_reply srv session msg).watchStreamId k).trans hk⟩

theorem refused (srv : SodpServer) (session : Session) (streamId code : ℕ) (message : String)
    (keys : List String) : Advances keys client (srv, session)
      (srv.reply session fun seq => .error streamId seq code message) := by
  apply reply
  intro _
  trivial

/-! ### Streams -/

theorem resumeKey (hkey : key ≠ "") (hentry : (client.valueAt key).isSome) (srv : SodpServer)
    (session : Session) (sinceVersion : ℕ) (params : Option Value) :
    Advances [key] client (srv, session) (srv.resumeKey session key sinceVersion params) := by
  obtain ⟨hstate, hfanout, htable⟩ := srv.resumeKey_frame session key sinceVersion params
  refine ⟨htable.id, .of_local (fun t hc => resumeKey_cancelled hc) ?_ ?_ hstate, ?_⟩
  · intro k t ht
    rw [hfanout, FanoutBus.streamsOf_subscribe, if_neg fun h => ht h.2, append_nil]
  · intro t ht hopen
    obtain ⟨_, _, -, hhandle⟩ := resumeKey_of_open hopen
    rw [hhandle, if_neg ht, WriteHandle.push_nil]
  · rintro hopen ⟨σ, hlinked⟩ hnone
    replace hnone := hnone key mem_cons_self
    refine ⟨⟨_, hlinked.resumeKey hnone hkey hentry hopen⟩, fun k hk hfree => ?_⟩
    have hunused : ∀ j, ¬ session.Watches session.nextStreamId j := fun j hj =>
      lt_irrefl _ (hlinked.watched _ j hj).1
    rw [htable.watchStreamId]
    refine (hlinked.single.watchStreamId_addWatch hnone hunused params k).trans ?_
    rw [if_neg (by simpa using hk)]
    exact hfree

theorem unwatchKey (key : String) : Advances [] client acc (SodpServer.unwatchKey acc key) := by
  obtain ⟨srv, session⟩ := acc
  have hlinked := fun σ (h : Linked σ srv session client) => h.unwatchKey key
  rw [SodpServer.unwatchKey] at hlinked ⊢
  cases hid : session.watchStreamId key with
  | none => exact refl client _
  | some =>
    rw [hid] at hlinked
    refine ⟨rfl, .of_local (fun _ hc => hc) ?_ (fun _ _ _ => rfl) rfl, ?_⟩
    · intro k t ht
      exact (FanoutBus.streamsOf_unsubscribe ..).trans (if_neg fun h => ht h.2)
    · rintro - ⟨σ, h⟩ -
      refine ⟨⟨σ, hlinked σ h⟩, fun k _ hk => ?_⟩
      refine (h.single.watchStreamId_removeWatch (Session.watches_of_watchStreamId hid) k).trans ?_
      split_ifs
      · rfl
      · exact hk

theorem foldl {f : SodpServer × Session → String → SodpServer × Session}
    (hstep : ∀ acc, ∀ k ∈ keys, Advances [k] client acc (f acc k)) (hnodup : keys.Nodup)
    (acc : SodpServer × Session) : Advances keys client acc (keys.foldl f acc) := by
  induction keys generalizing acc with
  | nil => exact refl client acc
  | cons key keys ih =>
    rw [nodup_cons] at hnodup
    have hrest := ih (fun acc k hk => hstep acc k (mem_cons_of_mem key hk)) hnodup.2 (f acc key)
    refine (hstep acc key mem_cons_self).trans hrest ?_
    simpa using hnodup.1

def Wanted (client : SodpClient) (keys : List String) : Prop :=
  ∀ k ∈ keys, k ≠ "" ∧ (client.valueAt k).isSome

theorem watchKey (hkey : key ≠ "") (hentry : (client.valueAt key).isSome) (params : Option Value) :
    Advances [key] client acc (SodpServer.watchKey params acc key) := by
  rw [SodpServer.watchKey]
  split_ifs
  · rw [subscribeKey_eq]
    exact resumeKey hkey hentry _ _ _ _
  · exact refused ..

theorem handleWatch (hframe : SodpServer.requestedKeys frame.body = some keys)
    (hnodup : keys.Nodup) (hwanted : Wanted client keys) (now : ℕ) :
    Advances keys client acc (acc.1.handleWatch acc.2 frame now) := by
  rw [SodpServer.handleWatch, hframe]
  refine (of_sameTable (acc.2.sameTable_allowWatch now)).andThen ?_
  dsimp only
  split_ifs
  · exact foldl (fun _ k hk => watchKey (hwanted k hk).1 (hwanted k hk).2 _) hnodup _
  · exact refused ..

theorem handleResume (hframe : (frame.body.get? "state").bind Value.asStr = some key)
    (hkey : key ≠ "") (hentry : (client.valueAt key).isSome) (now : ℕ) :
    Advances [key] client acc (acc.1.handleResume acc.2 frame now) := by
  rw [SodpServer.handleResume, hframe]
  refine (of_sameTable (acc.2.sameTable_allowWatch now)).andThen ?_
  dsimp only
  split_ifs
  · exact resumeKey hkey hentry _ _ _ _
  · exact refused ..
  · exact refused ..

theorem handleFrame_asks (h : Asks frame keys) (hnodup : keys.Nodup) (hwanted : Wanted client keys)
    (now : ℕ) : Advances keys client acc (acc.1.handleFrame acc.2 frame now) := by
  cases h with
  | watch htype hkeys =>
    rw [SodpServer.handleFrame, htype]
    exact handleWatch hkeys hnodup hwanted now
  | resume htype hkey =>
    rw [SodpServer.handleFrame, htype]
    obtain ⟨hne, hentry⟩ := hwanted _ mem_cons_self
    exact handleResume hkey hne hentry now

theorem handleFrames_asks {frames : List Frame} {asked : List (List String)}
    (h : List.Forall₂ Asks frames asked) (hnodup : asked.flatten.Nodup)
    (hwanted : Wanted client asked.flatten) (now : ℕ) (acc : SodpServer × Session) :
    Advances asked.flatten client acc (Network.handleFrames now acc frames) := by
  induction h generalizing acc with
  | nil => exact refl client acc
  | cons hasks _ ih =>
    rw [flatten_cons] at hnodup hwanted ⊢
    obtain ⟨hfirst, hrest, hdisjoint⟩ := nodup_append'.mp hnodup
    refine (handleFrame_asks hasks hfirst
      (fun k hk => hwanted k (mem_append_left _ hk)) now).trans ?_ hdisjoint
    exact ih hrest (fun k hk => hwanted k (mem_append_right _ hk)) _

/-! ### Calls -/

theorem commit {srv : SodpServer} {call : Call} (hplain : PlainStore srv.state)
    (hplain' : PlainStore (srv.state.exec call).1) :
    Advances [] client (srv, session) ((srv.commit session call).1, session) := by
  refine ⟨rfl, ⟨fun t hc => commit_cancelled hc,
    fun k t _ => srv.streamsOf_commit_sublist session call k t, ?_⟩, ?_⟩
  · intro σ other client hid hopen hlinked
    refine hlinked.commit hplain hplain' ?_ hopen
    rw [SodpServer.reached, if_neg hid, hlinked.streams]
  · rintro hopen ⟨σ, hlinked⟩ -
    refine ⟨⟨σ, hlinked.commit hplain hplain' ?_ hopen⟩, fun _ _ hk => hk⟩
    rw [SodpServer.reached, if_pos rfl]

theorem handleCall {now : ℕ} (hplain : PlainStore acc.1.state)
    (hplain' : PlainStore (acc.1.handleCall acc.2 frame now).1.state) :
    Advances [] client acc (acc.1.handleCall acc.2 frame now) := by
  obtain ⟨session, htable, -, h⟩ := acc.1.handleCall_cases acc.2 frame now
  refine (of_sameTable htable).andThen ?_
  cases hrequest : acc.1.acceptedRequest acc.2 frame now with
  | none =>
    rw [hrequest] at h
    obtain ⟨_, _, h⟩ := h
    rw [h]
    exact refused ..
  | some request =>
    rw [hrequest] at h
    rw [h] at hplain' ⊢
    change PlainStore (acc.1.commit session request.call).1.state at hplain'
    rw [state_commit] at hplain'
    refine ((commit hplain hplain').andThen (of_sameTable
      (SodpServer.sameTable_own _ request.presence))).andThen ?_
    apply reply
    intro _
    trivial

end Advances

/-! ### The end of a connection -/

variable {srv : SodpServer}

theorem PlainStore.cleanup (h : PlainStore srv.state) (entry : PresenceEntry) :
    PlainStore (srv.cleanup entry).state := by
  cases he : srv.state.get entry.stateKey with
  | none => rwa [SodpServer.cleanup, he]
  | some =>
    intro k
    rw [valueOf, state_cleanup he, content_exec]
    split_ifs
    · have hold := h entry.stateKey
      rw [valueOf, he] at hold
      exact allKeys_jsonRemoveIn hold entry.path
    · exact h k

theorem Preserves.cleanup (h : PlainStore srv.state) (entry : PresenceEntry) (s : String) :
    Preserves s srv (srv.cleanup entry) := by
  have hplain := h.cleanup entry
  cases he : srv.state.get entry.stateKey with
  | none =>
    rw [SodpServer.cleanup, he]
    exact refl s srv
  | some =>
    refine ⟨fun t hc => cleanup_cancelled hc, fun k t _ =>
      srv.streamsOf_cleanup_sublist entry k t, ?_⟩
    intro σ session client hid hopen hlinked
    obtain ⟨hstreams, hhandle⟩ := cleanup_of_open he hopen
    refine hlinked.exec h hplain (state_cleanup he) hstreams ?_
    rw [hhandle, WriteHandle.queue_push, hlinked.streams]
    rfl

theorem Preserves.endSession (h : PlainStore srv.state) (session : Session) :
    Preserves session.id srv (srv.endSession session) := by
  have hfold : ∀ (entries : List PresenceEntry) (srv : SodpServer), PlainStore srv.state →
      Preserves session.id srv (entries.foldl SodpServer.cleanup srv) := by
    intro entries
    induction entries with
    | nil => exact fun srv _ => refl _ srv
    | cons entry entries ih =>
      intro srv h
      exact (Preserves.cleanup h entry session.id).trans (ih _ (h.cleanup entry))
  refine (hfold session.presence srv h).trans (.of_local (fun _ hc => hc) ?_ (fun _ _ _ => rfl) rfl)
  intro k t ht
  exact (FanoutBus.streamsOf_removeSession ..).trans (if_neg ht)

end Sodp
