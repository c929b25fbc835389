import Mathlib.Data.Fintype.Basic
import Sodp.HandlerSteps
import Sodp.Transition

/-!
# Replicas converge

While events do not overlap, every connected client that has processed its queue holds the store's
value of every key its session watches, as long as no queue overflows, the keys of objects travel
intact and the empty key is not watched. The client loses a field `__proto__` that is added, and
takes the empty key for no key at all.
-/

namespace Sodp.Network
open Client StateStore Function Transition List Option SodpClient
open OrderedMap hiding keys

variable {ι : Type*} {net : Network ι}

structure PeerConsistent (srv : SodpServer) (peer : Peer) : Prop where
  authenticated : peer.session.isSome → peer.client.authenticated = true
  unbound : peer.session = none → ∀ streamId, peer.client.streamToKey.get? streamId = none
  named : ∀ k, (peer.client.valueAt k).isSome → k ≠ ""
  linked : ∀ session, peer.session = some session → ∃ σ, Linked σ srv session peer.client

/-- No queue of a connection has overflowed, and all object keys satisfy `P`. -/
structure Sound (P : String → Prop) (net : Network ι) : Prop where
  opened : ∀ i, ∀ session ∈ (net.peer i).session,
    (net.server.handles session.id).cancelled = false
  keys : StoreKeys P net.server.state

structure Consistent (net : Network ι) : Prop where
  sound : Sound PlainKey net
  ids : ∀ i j, ∀ a ∈ (net.peer i).session, ∀ b ∈ (net.peer j).session, a.id = b.id → i = j
  live : ∀ k s, net.server.fanout.streamsOf k s ≠ [] →
    ∃ i, ∃ session ∈ (net.peer i).session, session.id = s
  peers : ∀ i, PeerConsistent net.server (net.peer i)

variable {session : Session}

theorem Consistent.others_ne (h : Consistent net) {i : ι}
    (hsession : (net.peer i).session = some session) :
    ∀ j, j ≠ i → ∀ other ∈ (net.peer j).session, other.id ≠ session.id :=
  fun j hj other hother hid => hj (h.ids j i other hother session hsession hid)

/-! ### Serving one peer -/

structure Serves (client client' : SodpClient) (acc acc' : SodpServer × Session) : Prop where
  id : acc'.2.id = acc.2.id
  preserves : Preserves acc.2.id acc.1 acc'.1
  linked : (acc'.1.handles acc.2.id).cancelled = false → (∃ σ, Linked σ acc.1 acc.2 client) →
    ∃ σ, Linked σ acc'.1 acc'.2 client'

section Serving
variable {client client' : SodpClient} {acc acc' : SodpServer × Session} {keys asked : List String}

theorem linked_of_registered {σ : ℕ → String} {srv : SodpServer}
    (hlinked : Linked σ srv session client) (h : SodpClient.Registered keys client client') :
    Linked σ srv session client' := by
  refine hlinked.of_client ?_ fun streamId k hw => ?_
  · intro streamId k hk
    rw [h.streamToKey] at hk
    exact hlinked.bound streamId k hk
  · exact ⟨h.valueAt_of_isSome (hlinked.isSome_valueAt hw), fun a _ => by rw [h.streamToKey]⟩

theorem Serves.of_registered (h : SodpClient.Registered keys client client')
    (hadvances : Advances asked client' acc acc')
    (hfree : ∀ σ, Linked σ acc.1 acc.2 client → ∀ k ∈ asked, acc.2.watchStreamId k = none) :
    Serves client client' acc acc' where
  id := hadvances.id
  preserves := hadvances.preserves
  linked hopen := by
    rintro ⟨σ, hlinked⟩
    exact (hadvances.linked hopen ⟨σ, linked_of_registered hlinked h⟩ (hfree σ hlinked)).1

theorem Serves.of_dropped {key : String} (h : SodpClient.Dropped key client client')
    (hadvances : Advances [] client acc acc')
    (hgone : ∀ σ, Linked σ acc.1 acc.2 client → ∀ streamId, ¬ acc'.2.Watches streamId key) :
    Serves client client' acc acc' where
  id := hadvances.id
  preserves := hadvances.preserves
  linked hopen := by
    rintro ⟨σ, hlinked⟩
    obtain ⟨⟨σ', hlinked'⟩, -⟩ := hadvances.linked hopen ⟨σ, hlinked⟩ (by simp)
    refine ⟨σ', hlinked'.of_client (h.boundBy hlinked'.bound) fun streamId k hw => ?_⟩
    refine h.agreeOn hlinked'.bound fun hk => ?_
    exact hgone σ hlinked streamId (hk ▸ hw)

end Serving

/-! ### Changing one peer -/

section Peers
variable [DecidableEq ι] {i : ι} {srv : SodpServer} {peer : Peer} {s : String}

@[simp] theorem peer_setPeer_self (net : Network ι) (i : ι) (srv : SodpServer) (peer : Peer) :
    (net.setPeer i srv peer).peer i = peer := update_self ..

theorem peer_setPeer_of_ne (net : Network ι) {i j : ι} (h : j ≠ i) (srv : SodpServer)
    (peer : Peer) : (net.setPeer i srv peer).peer j = net.peer j := update_of_ne h _ _

theorem Consistent.setPeer (h : Consistent net) (hsound : Sound PlainKey (net.setPeer i srv peer))
    (hids : ∀ j, j ≠ i → ∀ a ∈ (net.peer j).session, ∀ b ∈ peer.session, a.id ≠ b.id)
    (hlive : ∀ k s, srv.fanout.streamsOf k s ≠ [] → (∃ session ∈ peer.session, session.id = s) ∨
      ∃ j, j ≠ i ∧ ∃ session ∈ (net.peer j).session, session.id = s)
    (hothers : ∀ j, j ≠ i → PeerConsistent srv (net.peer j)) (hpeer : PeerConsistent srv peer) :
    Consistent (net.setPeer i srv peer) := by
  refine ⟨hsound, ?_, ?_, ?_⟩
  · intro j l a ha b hb hab
    by_cases hj : j = i
    · by_cases hl : l = i
      · rw [hj, hl]
      · subst hj
        rw [peer_setPeer_self] at ha
        rw [peer_setPeer_of_ne net hl] at hb
        exact absurd hab.symm (hids l hl b hb a ha)
    · by_cases hl : l = i
      · subst hl
        rw [peer_setPeer_of_ne net hj] at ha
        rw [peer_setPeer_self] at hb
        exact absurd hab (hids j hj a ha b hb)
      · rw [peer_setPeer_of_ne net hj] at ha
        rw [peer_setPeer_of_ne net hl] at hb
        exact h.ids j l a ha b hb hab
  · intro k s hs
    rcases hlive k s hs with ⟨session, hsession, hid⟩ | ⟨j, hj, session, hsession, hid⟩
    · exact ⟨i, session, by rwa [peer_setPeer_self], hid⟩
    · exact ⟨j, session, by rwa [peer_setPeer_of_ne net hj], hid⟩
  · intro j
    by_cases hj : j = i
    · subst hj
      rw [peer_setPeer_self]
      exact hpeer
    · rw [peer_setPeer_of_ne net hj]
      exact hothers j hj

theorem Consistent.serve (h : Consistent net) (hpreserves : Preserves s net.server srv)
    (hold : ∀ session ∈ (net.peer i).session, session.id = s)
    (hothers : ∀ j, j ≠ i → ∀ session ∈ (net.peer j).session, session.id ≠ s)
    (hnew : ∀ session ∈ peer.session, session.id = s)
    (hended : peer.session = none → ∀ k, srv.fanout.streamsOf k s = [])
    (hpeer : PeerConsistent srv peer) (hsound : Sound PlainKey (net.setPeer i srv peer)) :
    Consistent (net.setPeer i srv peer) := by
  refine h.setPeer hsound (fun j hj a ha b hb => ?_) (fun k t ht => ?_) (fun j hj => ?_) hpeer
  · rw [hnew b hb]
    exact hothers j hj a ha
  · by_cases hts : t = s
    · left
      cases hsession : peer.session with
      | none =>
        rw [hts] at ht
        exact absurd (hended hsession k) ht
      | some session => exact ⟨session, rfl, (hnew session hsession).trans hts.symm⟩
    · right
      have hbefore : net.server.fanout.streamsOf k t ≠ [] := by
        intro hnil
        have hsub := hpreserves.streams k t hts
        rw [hnil, sublist_nil] at hsub
        exact ht hsub
      obtain ⟨j, session, hsession, hid⟩ := h.live k t hbefore
      refine ⟨j, fun hj => ?_, session, hsession, hid⟩
      subst hj
      exact hts (hid.symm.trans (hold session hsession))
  · have hj' := h.peers j
    refine ⟨hj'.authenticated, hj'.unbound, hj'.named, fun session hsession => ?_⟩
    obtain ⟨σ, hlinked⟩ := hj'.linked session hsession
    have hopen := hsound.opened j session (by rwa [peer_setPeer_of_ne net hj])
    exact ⟨σ, hpreserves.linked (hothers j hj session hsession) hopen hlinked⟩

variable {now : ℕ} {key : String} {session : Session} {sent : SodpClient × List Frame}

theorem Consistent.exchange (h : Consistent net)
    (hauthenticated : sent.1.authenticated = (net.peer i).client.authenticated)
    (hunbound : ∀ streamId, (net.peer i).client.streamToKey.get? streamId = none →
      sent.1.streamToKey.get? streamId = none)
    (hnamed : ∀ k, (sent.1.valueAt k).isSome → k ≠ "")
    (hserves : ∀ session, (net.peer i).session = some session →
      PlainStore (handleFrames now (net.server, session) sent.2).1.state →
        Serves (net.peer i).client sent.1 (net.server, session)
          (handleFrames now (net.server, session) sent.2))
    (hsound : Sound PlainKey (net.exchange i now sent)) : Consistent (net.exchange i now sent) := by
  have hi := h.peers i
  rw [Network.exchange] at hsound ⊢
  cases hsession : (net.peer i).session with
  | none =>
    rw [hsession] at hsound
    refine h.setPeer hsound (by simp) (fun k s hs => ?_) (fun j _ => h.peers j) ?_
    · obtain ⟨j, session, hj, hid⟩ := h.live k s hs
      refine .inr ⟨j, fun hji => ?_, session, hj, hid⟩
      rw [hji, hsession] at hj
      cases hj
    · exact ⟨by simp, fun _ streamId => hunbound streamId (hi.unbound hsession streamId), hnamed,
        by simp⟩
  | some session =>
    rw [hsession] at hsound
    obtain ⟨hid, hpreserves, hlinked⟩ := hserves session hsession hsound.keys
    have hopen := hsound.opened i (handleFrames now (net.server, session) sent.2).2
      (by rw [peer_setPeer_self]; rfl)
    rw [hid] at hopen
    refine h.serve hpreserves (fun a ha => ?_) (h.others_ne hsession) (fun a ha => ?_) (by simp)
      ⟨fun _ => ?_, by simp, hnamed, fun a ha => ?_⟩ hsound
    · rw [hsession] at ha
      rw [some.inj ha]
    · rw [← some.inj ha]
      exact hid
    · rw [hauthenticated]
      exact hi.authenticated (by rw [hsession]; rfl)
    · rw [← some.inj ha]
      exact hlinked hopen (hi.linked session hsession)

/-! ### Events -/

section
variable (h : Consistent net)
include h

variable {keys : List String}

theorem Consistent.request (asked : List (List String))
    (hregistered : SodpClient.Registered keys (net.peer i).client sent.1)
    (hkeys : ∀ k ∈ keys, k ≠ "") (hasks : List.Forall₂ Asks sent.2 asked)
    (hnodup : asked.flatten.Nodup) (hwanted : ∀ k ∈ asked.flatten, (sent.1.valueAt k).isSome)
    (hfree : ∀ session, (net.peer i).session = some session →
      ∀ σ, Linked σ net.server session (net.peer i).client →
        ∀ k ∈ asked.flatten, session.watchStreamId k = none)
    (hsound : Sound PlainKey (net.exchange i now sent)) : Consistent (net.exchange i now sent) := by
  have hnamed : ∀ k, (sent.1.valueAt k).isSome → k ≠ "" := by
    intro k hk
    rw [hregistered.valueAt] at hk
    split_ifs at hk with hmem
    · exact hkeys k hmem
    · exact (h.peers i).named k hk
  refine h.exchange hregistered.authenticated (fun a ha => by rwa [hregistered.streamToKey]) hnamed
    (fun session hsession _ => ?_) hsound
  exact .of_registered hregistered (.handleFrames_asks hasks hnodup
    (fun k hk => ⟨hnamed k (hwanted k hk), hwanted k hk⟩) now _) (hfree session hsession)

variable {params : Option Value}

theorem Consistent.watch (hkey : key ≠ "")
    (hsound : Sound PlainKey (net.exchange i now ((net.peer i).client.watch key params))) :
    Consistent (net.exchange i now ((net.peer i).client.watch key params)) := by
  obtain ⟨hregistered, hframes⟩ := (net.peer i).client.watch_asks key params
  have hkeys : ∀ k ∈ [key], k ≠ "" := by simpa using hkey
  rcases hframes with hnil | ⟨hnone, _, hframe, hasks⟩
  · exact h.request [] hregistered hkeys (hnil ▸ .nil) (by simp) (by simp) (by simp) hsound
  · refine h.request [[key]] hregistered hkeys (hframe ▸ .cons hasks .nil) (by simp)
      (by simp [hregistered.valueAt]) (fun session _ σ hlinked k hk => ?_) hsound
    rw [Session.watchStreamId_eq_none_iff]
    intro streamId hw
    have hsome := hlinked.isSome_valueAt hw
    simp only [flatten_cons, flatten_nil, append_nil, mem_singleton] at hk
    rw [hk, hnone] at hsome
    cases hsome

theorem Consistent.watchMany (hnodup : keys.Nodup) (hkeys : ∀ k ∈ keys, k ≠ "")
    (hfree : ∀ k ∈ keys, ∀ session ∈ (net.peer i).session, session.watchStreamId k = none)
    (hsound : Sound PlainKey (net.exchange i now ((net.peer i).client.watchMany keys params))) :
    Consistent (net.exchange i now ((net.peer i).client.watchMany keys params)) := by
  obtain ⟨hregistered, hframes⟩ := (net.peer i).client.watchMany_asks keys params
  rcases hframes with hnil | ⟨_, hframe, hasks⟩
  · exact h.request [] hregistered hkeys (hnil ▸ .nil) (by simp) (by simp) (by simp) hsound
  · refine h.request [keys] hregistered hkeys (hframe ▸ .cons hasks .nil) (by simpa using hnodup)
      (fun k hk => ?_) (fun session hsession σ _ k hk => ?_) hsound
    · rw [hregistered.valueAt, if_pos (by simpa using hk)]
      rfl
    · exact hfree k (by simpa using hk) session hsession

theorem Consistent.unsubscribe
    (hsound : Sound PlainKey (net.exchange i now ((net.peer i).client.unsubscribe key, []))) :
    Consistent (net.exchange i now ((net.peer i).client.unsubscribe key, [])) := by
  have hregistered : SodpClient.Registered [] (net.peer i).client
      ((net.peer i).client.unsubscribe key) :=
    ⟨unsubscribe_streamToKey _ key, unsubscribe_authenticated _ key,
      fun k => by simpa using unsubscribe_valueAt _ key k⟩
  exact h.request [] hregistered (by simp) .nil (by simp) (by simp) (by simp) hsound

theorem Consistent.call {body : Value}
    (hsound : Sound PlainKey (net.exchange i now
      (((net.peer i).client.call body).1, [((net.peer i).client.call body).2]))) :
    Consistent (net.exchange i now
      (((net.peer i).client.call body).1, [((net.peer i).client.call body).2])) := by
  have hregistered : SodpClient.Registered [] (net.peer i).client
      ((net.peer i).client.call body).1 := ⟨rfl, rfl, fun _ => rfl⟩
  refine h.exchange rfl (fun _ hs => hs) (h.peers i).named (fun session _ hplain => ?_) hsound
  exact .of_registered hregistered (.handleCall h.sound.keys hplain) (by simp)

theorem Consistent.unwatch
    (hsound : Sound PlainKey (net.exchange i now ((net.peer i).client.unwatch key))) :
    Consistent (net.exchange i now ((net.peer i).client.unwatch key)) := by
  obtain ⟨hdropped, hframes⟩ := (net.peer i).client.unwatch_drops key
  refine h.exchange hdropped.authenticated (fun a ha => ?_) (fun k hk => ?_)
    (fun session hsession _ => ?_) hsound
  · rcases hdropped.streamToKey a with hsame | ⟨hnone, -⟩
    · rw [hsame, ha]
    · exact hnone
  · rw [hdropped.valueAt] at hk
    split_ifs at hk
    · cases hk
    · exact (h.peers i).named k hk
  · rcases hframes with ⟨hnil, hidle⟩ | ⟨frame, hframe, htype, hkeys⟩
    · rw [hnil]
      refine .of_dropped hdropped (.refl _ _) fun σ hlinked streamId hw => ?_
      have hsome := hlinked.isSome_valueAt hw
      rcases hidle with hnone | hoffline
      · rw [hnone] at hsome
        cases hsome
      · have hauth := (h.peers i).authenticated (by rw [hsession]; rfl)
        rw [hoffline] at hauth
        cases hauth
    · rw [hframe]
      have hhandled : handleFrames now (net.server, session) [frame] =
          SodpServer.unwatchKey (net.server, session) key := by
        change net.server.handleFrame session frame now = _
        rw [SodpServer.handleFrame, htype]
        rw [SodpServer.handleUnwatch, hkeys]
        rfl
      rw [hhandled]
      refine .of_dropped hdropped (.unwatchKey key) fun σ hlinked => ?_
      rw [← Session.watchStreamId_eq_none_iff]
      exact hlinked.watchStreamId_unwatchKey key

theorem Consistent.join {sessionId : String} {sub : Option String} {claims : Value}
    (hoffline : (net.peer i).session = none)
    (hfresh : ∀ j, ∀ session ∈ (net.peer j).session, session.id ≠ sessionId) :
    Consistent (net.join i now sessionId sub claims) := by
  have hi := h.peers i
  have hhandle : ∀ s, s ≠ sessionId →
      (net.server.accept sessionId now).1.handles s = net.server.handles s := fun s hs =>
    update_of_ne hs _ _
  have hnew : (net.server.accept sessionId now).1.handles sessionId =
      ⟨[], net.server.backpressureLimit, false⟩ := update_self ..
  have hsound : Sound PlainKey (net.join i now sessionId sub claims) := by
    refine ⟨fun j session hsession => ?_, h.sound.keys⟩
    change ((net.server.accept sessionId now).1.handles session.id).cancelled = false
    by_cases hj : j = i
    · subst hj
      rw [Network.join, peer_setPeer_self] at hsession
      rw [← some.inj hsession]
      exact congrArg WriteHandle.cancelled hnew
    · rw [Network.join, peer_setPeer_of_ne net hj] at hsession
      rw [hhandle _ (hfresh j session hsession)]
      exact h.sound.opened j session hsession
  refine h.setPeer hsound (fun j _ a ha b hb => ?_) (fun k s hs => ?_) (fun j _ => ?_) ?_
  · rw [← some.inj hb]
    exact hfresh j a ha
  · obtain ⟨j, session, hj, hid⟩ := h.live k s hs
    refine .inr ⟨j, fun hji => ?_, session, hj, hid⟩
    rw [hji, hoffline] at hj
    cases hj
  · have hj := h.peers j
    refine ⟨hj.authenticated, hj.unbound, hj.named, fun session hsession => ?_⟩
    obtain ⟨σ, hlinked⟩ := hj.linked session hsession
    refine ⟨σ, hlinked.silent (m := []) (fun _ => rfl) (by simp) ?_ (fun _ => rfl)⟩
    rw [hhandle _ (hfresh j session hsession), append_nil]
  · refine ⟨fun _ => rfl, by simp, hi.named, fun session hsession => ⟨fun _ => "", ?_⟩⟩
    rw [← some.inj hsession]
    refine .fresh rfl (congrArg WriteHandle.queue hnew) (fun k => ?_) (hi.unbound hoffline)
    by_contra hs
    obtain ⟨j, other, hother, hid⟩ := h.live k sessionId hs
    exact hfresh j other hother hid

theorem Consistent.onReady (hsession : (net.peer i).session = some session)
    (hempty : session.watches = .empty)
    (hsound : Sound PlainKey (net.exchange i now (net.peer i).client.onReady)) :
    Consistent (net.exchange i now (net.peer i).client.onReady) := by
  obtain ⟨htables, keys, hasks, hnodup, hsome⟩ := (net.peer i).client.onReady_asks
  have hauth := (h.peers i).authenticated (by rw [hsession]; rfl)
  have hregistered : SodpClient.Registered [] (net.peer i).client (net.peer i).client.onReady.1 :=
    ⟨htables.streamToKey, htables.authenticated.trans hauth.symm, fun k => htables.valueAt k⟩
  have hflatten : (keys.map fun k => [k]).flatten = keys := by
    rw [← flatMap_def, flatMap_singleton']
  refine h.request _ hregistered (by simp) hasks (hflatten.symm ▸ hnodup) (fun k hk => ?_)
    (fun session' hsession' σ _ k _ => ?_) hsound
  · rw [hflatten] at hk
    exact (htables.valueAt k).symm ▸ hsome k hk
  · rw [hsession] at hsession'
    rw [← some.inj hsession']
    exact Session.watchStreamId_of_empty hempty k

theorem Consistent.receive {msg : OutboundMsg} {rest : List OutboundMsg}
    (hsession : (net.peer i).session = some session)
    (hqueue : (net.server.handles session.id).queue = msg :: rest)
    (hsound : Sound PlainKey (net.setPeer i (dequeue net.server session.id)
      ⟨(net.peer i).client.handleFrame msg, some session⟩)) :
    Consistent (net.setPeer i (dequeue net.server session.id)
      ⟨(net.peer i).client.handleFrame msg, some session⟩) := by
  have hi := h.peers i
  have hself : (dequeue net.server session.id).handles session.id =
      { net.server.handles session.id with queue := rest } := by
    rw [dequeue, hqueue]
    exact update_self ..
  have hothers : ∀ s, s ≠ session.id →
      (dequeue net.server session.id).handles s = net.server.handles s := fun s hs =>
    update_of_ne hs _ _
  have hlocal : Preserves session.id net.server (dequeue net.server session.id) := by
    refine .of_local (fun s hc => ?_) (fun _ _ _ => rfl) (fun s hs _ => by rw [hothers s hs]) rfl
    by_cases hs : s = session.id
    · rw [hs] at hc ⊢
      rw [hself]
      exact hc
    · rw [hothers s hs]
      exact hc
  refine h.serve hlocal (fun a ha => ?_) (h.others_ne hsession) (fun a ha => ?_) (by simp)
    ⟨fun _ => ?_, by simp, fun k hk => ?_, fun a ha => ?_⟩ hsound
  · rw [hsession] at ha
    rw [some.inj ha]
  · rw [some.inj ha]
  · rw [authenticated_handleFrame]
    exact hi.authenticated (by rw [hsession]; rfl)
  · rw [isSome_valueAt_handleFrame] at hk
    exact hi.named k hk
  · obtain ⟨σ, hlinked⟩ := hi.linked session hsession
    rw [← some.inj ha]
    exact ⟨σ, hlinked.receive hqueue (congrArg WriteHandle.queue hself) rfl rfl⟩

theorem Consistent.disconnect (hsession : (net.peer i).session = some session)
    (hsound : Sound PlainKey (net.setPeer i (net.server.endSession session)
      ⟨(net.peer i).client.onDisconnect, none⟩)) :
    Consistent (net.setPeer i (net.server.endSession session)
      ⟨(net.peer i).client.onDisconnect, none⟩) := by
  refine h.serve (.endSession h.sound.keys session) (fun a ha => ?_) (h.others_ne hsession)
    (by simp) (fun _ k => ?_) ⟨by simp, fun _ a => ?_, (h.peers i).named, by simp⟩ hsound
  · rw [hsession] at ha
    rw [some.inj ha]
  · exact (FanoutBus.streamsOf_removeSession ..).trans (if_pos rfl)
  · exact get?_empty a

end

end Peers

/-! ### Whole runs -/

theorem Consistent.cached (h : Consistent net) {i : ι}
    (hconnected : (net.peer i).session = some session) {key : String}
    (hwatched : session.watchStreamId key ≠ none) : ∃ e, (net.settled i).watches.get? key = some e ∧
      e.value = .ofJson (net.server.state.valueOf key) := by
  obtain ⟨σ, hlinked⟩ := (h.peers i).linked session hconnected
  obtain ⟨streamId, hid⟩ := ne_none_iff_exists'.mp hwatched
  rw [settled, hconnected]
  exact (hlinked.shows streamId key (Session.watches_of_watchStreamId hid)).2

/-- Session ids are not reused while they are in use, the keys that are watched
satisfy `W`, and none is watched twice on a connection. -/
def Allowed (W : String → Prop) (net : Network ι) (e : Event ι) : Prop :=
  match e.input with
  | .connect sessionId .. => ∀ j, ∀ session ∈ (net.peer j).session, session.id ≠ sessionId
  | .watch key _ => W key
  | .watchMany keys _ => keys.Nodup ∧ (∀ k ∈ keys, W k) ∧
      ∀ k ∈ keys, ∀ session ∈ (net.peer e.peer).session, session.watchStreamId k = none
  | _ => True

structure Initial (net : Network ι) : Prop where
  fanout : net.server.fanout = .new
  peers : ∀ i, net.peer i = ⟨.new, none⟩
  plain : PlainStore net.server.state

theorem Initial.consistent (h : Initial net) : Consistent net := by
  have hnone : ∀ i, (net.peer i).session = none := fun i => by rw [h.peers]
  refine ⟨⟨fun i session hs => ?_, h.plain⟩, fun i j a ha => ?_, fun k s hs => ?_, fun i => ?_⟩
  · rw [hnone] at hs
    cases hs
  · rw [hnone] at ha
    cases ha
  · rw [h.fanout, FanoutBus.streamsOf, FanoutBus.subscribersOf_new] at hs
    exact absurd rfl hs
  · rw [h.peers]
    refine ⟨by simp, fun _ a => get?_empty a, fun k hk => ?_, by simp⟩
    rw [SodpClient.valueAt, show SodpClient.new.watches = .empty from rfl, get?_empty] at hk
    cases hk

section Runs
variable [DecidableEq ι]

def Fair (P W : String → Prop) (net : Network ι) (e : Event ι) : Prop :=
  Allowed W net e ∧ ∀ t ∈ net.step e, Sound P t

theorem Consistent.step {e : Event ι} {t : Network ι} (h : Consistent net)
    (hfair : Fair PlainKey (· ≠ "") net e) (hstep : net.step e = some t) : Consistent t := by
  obtain ⟨hallowed, hsound⟩ := hfair
  replace hsound := hsound t hstep
  obtain ⟨i, now, _⟩ := e
  rw [Network.step] at hstep
  dsimp only at hstep
  split at hstep
  · next sessionId sub claims hsession =>
    cases hstep
    have hjoined : Consistent (net.join i now sessionId sub claims) := h.join hsession hallowed
    exact hjoined.onReady (by rw [Network.join, peer_setPeer_self]) rfl hsound
  · cases hstep
    exact h.watch hallowed hsound
  · cases hstep
    exact h.watchMany hallowed.1 hallowed.2.1 hallowed.2.2 hsound
  · cases hstep
    exact h.unsubscribe hsound
  · cases hstep
    exact h.unwatch hsound
  · cases hstep
    exact h.call hsound
  · next hsession =>
    split at hstep
    · cases hstep
    · next hqueue =>
      cases hstep
      exact h.receive hsession hqueue hsound
  · next hsession =>
    cases hstep
    exact h.disconnect hsession hsound
  · cases hstep

theorem replicas_converge {initial : Network ι} {events : List (Event ι)}
    (hstart : Initial initial) (hrun : run Network.step initial events = some net)
    (hfair : Transition.Along Network.step (Fair PlainKey (· ≠ "")) initial events) {i : ι}
    {session : Session} (hconnected : (net.peer i).session = some session) {key : String}
    (hwatched : session.watchStreamId key ≠ none) : ∃ e, (net.settled i).watches.get? key = some e ∧
      e.value = .ofJson (net.server.state.valueOf key) := by
  have h : Consistent net := invariant_along (I := Consistent)
    (fun _ _ _ hs hok hstep => hs.step hok hstep) hstart.consistent hfair hrun
  exact h.cached hconnected hwatched

end Runs

section Decidable
variable [DecidableEq ι] [Fintype ι] (P W : String → Prop) [DecidablePred P] [DecidablePred W]

instance decidableSound (net : Network ι) : Decidable (Sound P net) :=
  decidable_of_iff ((∀ i, ∀ session ∈ (net.peer i).session,
      (net.server.handles session.id).cancelled = false) ∧ StoreKeys P net.server.state)
    ⟨fun h => ⟨h.1, h.2⟩, fun h => ⟨h.opened, h.keys⟩⟩

instance decidableAllowed (net : Network ι) (e : Event ι) : Decidable (Allowed W net e) := by
  unfold Allowed
  split <;> infer_instance

instance decidableFair (net : Network ι) (e : Event ι) : Decidable (Fair P W net e) :=
  inferInstanceAs (Decidable (Allowed W net e ∧ ∀ t ∈ net.step e, Sound P t))

end Decidable

def twoClients : Network (Fin 2) := ⟨.new, fun _ => ⟨.new, none⟩⟩

theorem twoClients_initial : Initial twoClients := ⟨rfl, fun _ => rfl, by decide⟩

def setBody (key : String) (value : Value) : Value :=
  .ofFields [("method", .string "state.set"),
    ("args", .ofFields [("state", .string key), ("value", value)])]

def watchAndResume : List (Event (Fin 2)) :=
  [⟨0, 0, .connect "a" none .null⟩, ⟨1, 0, .connect "b" none .null⟩, ⟨0, 0, .watch "k" none⟩,
    ⟨1, 0, .call (setBody "k" (.ofFields [("x", .null)]))⟩, ⟨0, 0, .receive⟩, ⟨0, 0, .receive⟩,
    ⟨0, 0, .disconnect⟩, ⟨1, 0, .call (setBody "k" (.ofFields [("x", .bool true)]))⟩,
    ⟨0, 0, .connect "c" none .null⟩,
    ⟨1, 0, .call (setBody "k" (.ofFields [("x", .bool true), ("y", .null)]))⟩]

theorem replicas_converge_two : ∃ net, run Network.step twoClients watchAndResume = some net ∧
      net.server.state.valueOf "k" = .ofFields [("x", .bool true), ("y", .null)] ∧
      ∃ e, (net.settled 0).watches.get? "k" = some e ∧
        e.value = .ofJson (net.server.state.valueOf "k") := by
  obtain ⟨net, hnet, hvalue, session, hsession, hid⟩ : ∃ net ∈ run Network.step twoClients
      watchAndResume, net.server.state.valueOf "k" = .ofFields [("x", .bool true), ("y", .null)] ∧
        ∃ session ∈ (net.peer 0).session, session.watchStreamId "k" = some 10 := by
    decide +kernel
  refine ⟨net, hnet, hvalue,
    replicas_converge twoClients_initial hnet (by decide +kernel) hsession ?_⟩
  simp [hid]

/-- A key that is neither empty nor contains a slash. -/
def SlashFree (k : String) : Prop := k ≠ "" ∧ '/' ∉ k.toList

instance : DecidablePred SlashFree := fun k => inferInstanceAs (Decidable (k ≠ "" ∧ '/' ∉ k.toList))

def watchAndSet (key : String) (values : List Value) : List (Event (Fin 2)) :=
  [⟨0, 0, .connect "a" none .null⟩, ⟨1, 0, .connect "b" none .null⟩, ⟨0, 0, .watch key none⟩] ++
    values.map fun value => ⟨1, 0, .call (setBody key value)⟩

def outcome (key : String) (net : Network (Fin 2)) : Option ℕ × Option JsValue × Value :=
  ((net.peer 0).session.bind fun session => session.watchStreamId key,
    (net.settled 0).valueAt key, net.server.state.valueOf key)

/-- A field `__proto__` that is added to an object does not arrive, and no delta of the
empty key does. -/
theorem replicas_diverge : (Transition.Along Network.step (Fair SlashFree (· ≠ "")) twoClients
      (watchAndSet "k" [.ofFields [], .ofFields [("__proto__", .null)]]) ∧
    (run Network.step twoClients
      (watchAndSet "k" [.ofFields [], .ofFields [("__proto__", .null)]])).map (outcome "k") =
        some (some 10, some (.ofJson (.ofFields [])), .ofFields [("__proto__", .null)])) ∧
    Transition.Along Network.step (Fair PlainKey fun _ => True) twoClients
      (watchAndSet "" [.bool true]) ∧
    (run Network.step twoClients (watchAndSet "" [.bool true])).map (outcome "") =
      some (some 10, some (.ofJson .null), .bool true) := by
  refine ⟨⟨?_, ?_⟩, ?_, ?_⟩ <;> decide +kernel

end Sodp.Network
