import Sodp.GoAttached

/-!
# Reconnecting clients of the Go server

The server sends a STATE_INIT only if its log does not cover the version of a RESUME. If it does,
the deltas that follow come on a stream that the client does not know. A client follows a key as
long as each RESUME is answered by a snapshot, each delta arrives in full, and the worker of the
key does not leave it.
-/

namespace Sodp.GoServer
open Transition
open Client (SodpClient)

/-! ### Runs -/

variable {client : SodpClient}

namespace Link

structure Sound (key : String) (l : Link) : Prop where
  resting : l.node.fanout.Resting
  listening : l.node.fanout.Listening
  watching : Watching key l.client
  apart : l.sess = none → l.client.streamToKey = .empty ∧ l.client.nextStreamId = 10
  live : ∀ sess, l.sess = some sess →
    key ≠ "" ∧ Attached l.node sess l.client ∧ ∃ sid, Live key sid l.node sess l.client

section Steps
variable {dec : Decoding} {key : String} {l : Link}

variable {sess : Session}

theorem Sound.of_live {n : Node} {c : SodpClient} (hkey : key ≠ "") (hatt : Attached n sess c)
    (hwatching : Watching key c) (hlive : ∃ sid, Live key sid n sess c) :
    Sound key ⟨n, some sess, c⟩ := by
  refine ⟨hatt.resting, hatt.listening, hwatching, fun h => (Option.some_ne_none _ h).elim, ?_⟩
  intro s hs
  cases hs
  exact ⟨hkey, hatt, hlive⟩

theorem Sound.connect (h : l.Sound key) (hnone : l.sess = none) {ch : Choices}
    (hok : l.Steady dec key (.connect sess ch)) :
    Sound key (l.client.onReady.2.foldl (serve dec ch)
      ⟨l.node, some sess, l.client.onReady.1⟩) := by
  obtain ⟨hfresh, hwelcome, hsince⟩ := hok
  obtain ⟨hstreams, hnext⟩ := h.apart hnone
  obtain ⟨htables, -⟩ := SodpClient.onReady_asks l.client
  have hempty : ∀ s : ℕ, sess.watches.get? s = none := by
    intro s
    rw [hfresh.watches]
    rfl
  have harr : Arriving l.node sess 10 l.node sess l.client.onReady.1 := by
    refine ⟨⟨h.resting, h.listening, hfresh.queue, hfresh.room, ?_, ?_, ?_⟩, rfl, rfl,
      ⟨rfl, rfl, rfl, rfl, rfl, rfl⟩, ?_, ?_⟩
    · intro s k hs
      rw [htables.streamToKey] at hs
      rw [hstreams] at hs
      cases hs
    · exact fun k sub hsub hid => absurd hid (hfresh.unknown k sub hsub)
    · exact fun s k hs => absurd (hempty s ▸ hs) (Option.some_ne_none k).symm
    · exact fun s k hs => absurd (hempty s ▸ hs) (Option.some_ne_none k).symm
    · rw [hfresh.watches]
      exact Nat.le_refl 10
  have hwatching : Watching key l.client.onReady.1 := by
    rw [Watching, htables.watches]
    exact h.watching
  have hnodup : (l.client.watches.toList.map Prod.fst).Nodup := by
    rw [OrderedMap.map_fst_toList]
    exact l.client.watches.sorted.imp ne_of_lt
  have hlength : l.client.watches.toList.length = l.client.watches.keys.length := by
    rw [← OrderedMap.map_fst_toList, List.length_map]
  have hdue : Due dec ch l.node key l.client.watches.toList l.node sess l.client.onReady.1 := by
    obtain ⟨entry, hentry, hpos⟩ := h.watching
    refine .inr ⟨fun s hs => ?_, entry, (OrderedMap.mem_toList _ _ _).mpr hentry, hpos,
      hsince entry hentry⟩
    rw [hempty] at hs
    cases hs
  obtain ⟨_, _, _, heq, hatt, hwatching', hlive⟩ :=
    live_requests dec ch hfresh.auth hwelcome hnodup (by omega) harr hwatching hdue
      (l.client.nextSeq + 1)
  have hkey : key ≠ "" := by
    intro he
    have hvalid := hwelcome.valid
    rw [he] at hvalid
    exact absurd hvalid (by decide)
  rw [onReady_requests, hnext, heq]
  exact Sound.of_live hkey hatt hwatching' hlive

theorem Sound.disconnect (h : l.Sound key) (id : String) :
    Sound key ⟨{ l.node with fanout := l.node.fanout.removeSession id }, none,
      l.client.onDisconnect⟩ where
  resting := h.resting
  listening := h.listening.removeSession id
  watching := h.watching
  apart := fun _ => ⟨rfl, rfl⟩
  live := fun _ hsess => (Option.some_ne_none _ hsess.symm).elim

theorem Sound.heard {n : Node} {c : SodpClient} (hkey : key ≠ "") (hatt : Attached n sess c)
    (hwatching : Watching key c) {conn : Conn} (hfanout : conn.1.fanout = n.fanout)
    (hkin : Kin sess conn.2) (hwatches : conn.2.watches = sess.watches)
    (hfor : ∀ msg ∈ conn.2.queue, msg.For sess.watches fun _ => True)
    (hlive : ∃ sid, Live key sid conn.1 conn.2.drained (conn.2.queue.foldl hears c)) :
    Sound key (hear conn c) := by
  rw [hear, handleFrames_read]
  refine Sound.of_live hkey ?_ (hwatching.foldl_hears _) hlive
  refine hatt.congr hfanout hkin.drained hwatches rfl ?_
  change Bound conn.2.watches _
  rw [hwatches]
  exact hatt.bound.foldl_hears hfor

section
variable (h : l.Sound key)
include h

theorem Sound.mutate (hsess : l.sess = some sess) {m : Mutation}
    {sender : String} (hok : l.Steady dec key (.mutate m sender)) :
    Sound key (hear (spread (l.node.commit m sender, sess) m.key) l.client) := by
  obtain ⟨hkey, hatt, sid, hlive⟩ := h.live sess hsess
  obtain ⟨hsender, hshown⟩ := hok sess hsess
  rw [spread_commit h.resting]
  obtain ⟨queue, heq, hqueue⟩ :=
    foldl_post (fun msg : Subscriber × DeltaEntry => OutMsg.delta msg.1.streamID msg.2)
      (sentTo l.node m sender sess.id) sess
  have hfor : ∀ msg ∈ queue, msg.For sess.watches (· = m.key) := by
    intro msg hmsg
    rcases hqueue msg hmsg with hold | ⟨_, hsent, rfl⟩
    · rw [hatt.queue] at hold
      exact absurd hold List.not_mem_nil
    · exact ⟨m.key, hatt.sentTo_for hsent, rfl⟩
  rw [heq]
  refine Sound.heard hkey hatt h.watching rfl ⟨rfl, rfl, rfl, rfl, rfl, rfl⟩ rfl
    (fun msg hmsg => (hfor msg hmsg).imp fun _ _ => trivial) ⟨sid, ?_⟩
  by_cases hm : m.key = key
  · cases hrun : (m.run l.node.state).2 with
    | none =>
      have hsent : sentTo l.node m sender sess.id = [] := by rw [sentTo, hrun]
      rw [hsent] at heq
      have hqueue : sess.queue = queue := congrArg Session.queue heq
      rw [← hqueue, hatt.queue]
      exact hlive.unchanged hrun ⟨rfl, rfl, rfl, rfl, rfl, rfl⟩ rfl fun msg hmsg =>
        absurd hmsg List.not_mem_nil
    | some delta =>
      rw [hlive.sentTo hatt hm hsender hrun, List.foldl_cons, List.foldl_nil,
        hatt.post_first] at heq
      have hqueue : [OutMsg.delta sid delta] = queue := congrArg Session.queue heq
      have hkin : Kin sess { sess with queue := queue }.drained := ⟨rfl, rfl, rfl, rfl, rfl, rfl⟩
      rw [← hqueue] at hkin ⊢
      exact hlive.changed hkey hm (hshown hm) hrun hkin rfl fun msg hmsg =>
        absurd hmsg List.not_mem_nil
  · exact hlive.other hatt hm ⟨rfl, rfl, rfl, rfl, rfl, rfl⟩ rfl fun msg hmsg =>
      (hfor msg hmsg).imp fun k hk => hk ▸ hm

theorem Sound.silent {sess' : Session} (hsess : l.sess = some sess)
    (hkin : Kin sess sess') (hwatches : sess'.watches = sess.watches) (hqueue : sess'.queue = [])
    {msg : OutMsg} (hmsg : msg.shows = none) (name : String) :
    Sound key (hear (spread (l.node, sess'.post msg) name) l.client) := by
  obtain ⟨hkey, hatt, sid, hlive⟩ := h.live sess hsess
  have hatt' : Attached l.node sess' l.client :=
    hatt.congr rfl hkin hwatches hqueue (hwatches ▸ hatt.bound)
  have hsilent : ∀ m ∈ [msg], m.read = none := by
    intro m hm
    rw [List.mem_singleton.mp hm]
    exact OutMsg.read_of_shows hmsg
  rw [spread_resting h.resting, hatt'.post_first]
  refine Sound.heard hkey hatt h.watching rfl (hkin.posted _) hwatches
    (fun m hm => OutMsg.for_of_read (hsilent m hm) _ _) ⟨sid, ?_⟩
  rw [foldl_hears_of_none hsilent]
  exact hlive.congr rfl rfl (hkin.posted _).drained hwatches hlive.shows

theorem Sound.change {sess' : Session} (hsess : l.sess = some sess)
    (hkin : Kin sess sess') (hwatches : sess'.watches = sess.watches) (hqueue : sess'.queue = [])
    {m : Mutation} (hshown : m.key = key → m.Shown l.node.state) (f : Frame) (callID : GoValue)
    (range : KeyOrder ℕ) :
    Sound key (hear (spread (GoServer.change (l.node, sess') m f callID range) m.key)
      l.client) := by
  obtain ⟨hkey, hatt, sid, hlive⟩ := h.live sess hsess
  have hatt' : Attached l.node sess' l.client :=
    hatt.congr rfl hkin hwatches hqueue (hwatches ▸ hatt.bound)
  have hsilent : ∀ result : OutMsg, result.read = none → ∀ m ∈ [result], m.read = none := by
    intro result hresult m hm
    rw [List.mem_singleton.mp hm]
    exact hresult
  rw [GoServer.change]
  rw [hatt'.post_first]
  cases hrun : (m.run l.node.state).2 with
  | none =>
    have hresult := hsilent (.result f.streamID f.seq callID none) rfl
    dsimp only [Option.map_none]
    rw [spread_commit h.resting, sentTo_sender]
    refine Sound.heard hkey hatt h.watching rfl (hkin.posted _) hwatches
      (fun m hm => OutMsg.for_of_read (hresult m hm) _ _) ⟨sid, ?_⟩
    exact hlive.unchanged hrun (hkin.posted _).drained hwatches hresult
  | some delta =>
    have hresult := hsilent (.result f.streamID f.seq callID (some delta.version)) rfl
    dsimp only [Option.map_some]
    generalize OutMsg.result f.streamID f.seq callID (some delta.version) = result at hresult ⊢
    have hdelta := Mutation.key_run hrun
    by_cases hm : m.key = key
    · have hlive' : Live key sid l.node sess' l.client :=
        hlive.congr rfl rfl hkin hwatches hlive.shows
      rw [hlive'.sendDeltaDirect hatt' (hdelta.trans hm), spread_commit h.resting, sentTo_sender]
      refine Sound.heard hkey hatt h.watching rfl (hkin.posted _) hwatches ?_ ⟨sid, ?_⟩
      · intro msg hmsg
        rcases List.mem_cons.mp hmsg with rfl | hmsg
        · exact OutMsg.for_of_read (hresult _ List.mem_cons_self) _ _
        · rw [List.mem_singleton.mp hmsg]
          exact ⟨key, hlive.watched, trivial⟩
      · exact hlive.changed hkey hm (hshown hm) hrun (hkin.posted _).drained hwatches hresult
    · obtain ⟨queue, heq, hqueue⟩ := sendDeltaDirect_cases sess' delta range result
      have hfor : ∀ msg ∈ queue, msg.For sess.watches (· ≠ key) := by
        intro msg hmsg
        rcases hqueue msg hmsg with rfl | hown
        · exact OutMsg.for_of_read (hresult _ List.mem_cons_self) _ _
        · exact hwatches ▸ hown.imp fun k hk => hk ▸ hdelta ▸ hm
      rw [heq, spread_commit h.resting, sentTo_sender]
      refine Sound.heard hkey hatt h.watching rfl (hkin.posted _) hwatches
        (fun msg hmsg => (hfor msg hmsg).imp fun _ _ => trivial) ⟨sid, ?_⟩
      exact hlive.other hatt hm (hkin.posted _).drained hwatches hfor

theorem Sound.call (hsess : l.sess = some sess) {ch : Choices} {f : Frame}
    (htype : f.type = .call) (hok : l.Steady dec key (.call ch f)) :
    Sound key (hear (spread (dispatch ch (l.node, sess) f) f.callKey) l.client) := by
  have hqueue : sess.queue = [] := (h.live sess hsess).2.1.queue
  have hself : Kin sess sess := ⟨rfl, rfl, rfl, rfl, rfl, rfl⟩
  rw [dispatch, htype]
  dsimp only
  by_cases hauth : (checkAuth l.node.opts sess).2 = true
  · rw [if_pos hauth]
    obtain ⟨count, reset, ⟨_, hmsg, heq⟩ | ⟨m, callID, range, hm, -, heq⟩⟩ :=
      handleCall_cases ch (l.node, sess) f
    · have hkin : Kin sess { sess with rateCount := count, rateReset := reset } :=
        ⟨rfl, rfl, rfl, rfl, rfl, rfl⟩
      rw [heq]
      exact h.silent hsess hkin rfl hqueue hmsg _
    · have hkin : Kin sess { sess with rateCount := count, rateReset := reset } :=
        ⟨rfl, rfl, rfl, rfl, rfl, rfl⟩
      rw [heq, ← hm.key]
      exact h.change hsess hkin rfl hqueue (hok m hm) f callID range
  · have hrefused : (checkAuth l.node.opts sess).1 =
        sess.post (.error 0 401 "authentication required") := by
      rw [checkAuth] at hauth ⊢
      split_ifs at hauth ⊢
      · exact absurd rfl hauth
      · rfl
    rw [if_neg hauth, hrefused]
    exact h.silent hsess hself rfl hqueue rfl _

theorem Sound.bus {e : BusEvent} {bus : FanoutBus}
    (hbetween : e.betweenRequests = true) (hstep : l.node.fanout.step e = some bus)
    (hok : l.Steady dec key (.bus e)) :
    Sound key { l with node := { l.node with fanout := bus } } := by
  have hresting := h.resting.step hbetween hstep
  have hlistening := h.listening.step hok.1 hstep
  refine ⟨hresting, hlistening, h.watching, h.apart, fun sess hsess => ?_⟩
  obtain ⟨hkey, hatt, sid, hlive⟩ := h.live sess hsess
  have hperm := FanoutBus.filter_subs_step hbetween (hok.2 sess hsess) hstep
  refine ⟨hkey, ⟨hresting, hlistening, hatt.queue, hatt.room, hatt.bound, ?_, hatt.nonzero⟩, sid,
    hlive.watched, hlive.only, ?_, hlive.shows⟩
  · intro k sub hsub hid
    have hmem := (hperm k).mem_iff.mp (List.mem_filter.mpr ⟨hsub, by simpa using hid⟩)
    exact hatt.subs k sub (List.mem_filter.mp hmem).1 hid
  · have hsingle := hperm key
    rw [hlive.sub] at hsingle
    exact List.perm_singleton.mp hsingle

theorem Sound.step {e : LinkEvent} {next : Link} (hok : l.Steady dec key e)
    (hstep : l.step dec e = some next) : next.Sound key := by
  cases e with
  | connect =>
    rw [Link.step] at hstep
    split at hstep
    · cases hstep
    · next hsess =>
      cases hstep
      exact h.connect hsess hok
  | disconnect =>
    rw [Link.step] at hstep
    split at hstep
    · cases hstep
    · next sess _ =>
      cases hstep
      exact h.disconnect sess.id
  | call =>
    rw [Link.step] at hstep
    split at hstep
    · cases hstep
    · next hsess =>
      split_ifs at hstep with htype
      cases hstep
      exact h.call hsess htype hok
  | mutate =>
    rw [Link.step] at hstep
    split at hstep
    · next hsess =>
      simp only [deliver_commit h.resting] at hstep
      cases hstep
      exact ⟨h.resting, h.listening, h.watching, fun _ => h.apart hsess, by simp [hsess]⟩
    · next hsess =>
      cases hstep
      exact h.mutate hsess hok
  | bus =>
    rw [Link.step] at hstep
    split_ifs at hstep with hbetween
    obtain ⟨bus, hbus, rfl⟩ := Option.map_eq_some_iff.mp hstep
    exact h.bus hbetween hbus hok

end

theorem sound_start (opts : Options) (state : StateStore) (h : Watching key client) :
    (start opts state client).Sound key where
  resting := fun _ _ hch => by cases hch
  listening := fun _ hsubs => absurd rfl hsubs
  watching := h
  apart := fun _ => ⟨rfl, rfl⟩
  live := fun _ hsess => by cases hsess

/-- Along a steady run the client holds the value of the key whenever it is connected. -/
theorem steady_client_follows (dec : Decoding) {opts : Options} {state : StateStore}
    {client : SodpClient} (hwatching : Watching key client) {events : List LinkEvent} {l : Link}
    (hok : Along (step dec) (fun l => Steady dec key l) (start opts state client) events)
    (hrun : run (step dec) (start opts state client) events = some l) {sess : Session}
    (hsess : l.sess = some sess) :
    l.client.valueAt key = some (.ofJson (l.node.state.get key).1.toJson) := by
  have hsound : l.Sound key :=
    invariant_along (I := fun l : Link => l.Sound key)
      (fun _ _ _ h hok hstep => h.step hok hstep) (sound_start opts state hwatching) hok hrun
  obtain ⟨-, -, _, hlive⟩ := hsound.live sess hsess
  exact (SodpClient.shows_iff.mp hlive.shows).2

end Steps

end Link

/-! ### Snapshots and replays -/

/-- The shortest of the encodings of an integer. -/
def packedInt (i : ℤ) : List IntKind → GoValue
  | [] => .scalar (.float .float64 i)
  | kind :: kinds =>
    if h : kind.Holds i then .scalar (.int ⟨kind, i, h⟩) else packedInt i kinds

mutual
def unpacked : Value → GoValue
  | .null => .nil
  | .bool b => .bool b
  | .number (.int i) =>
    packedInt i [.int8, .uint8, .uint16, .int16, .uint32, .int32, .uint64, .int64]
  | .number (.float q) => .scalar (.float .float64 q)
  | .string s => .string s
  | .array xs => .slice (unpackedList xs)
  | .object ⟨ks, hs, f⟩ => .map ⟨ks, hs, fun k => unpacked (f k)⟩
def unpackedList : List Value → List GoValue
  | [] => []
  | x :: xs => unpacked x :: unpackedList xs
end

theorem unpacked_object (m : OrderedMap String Value) :
    unpacked (.object m) = .map (m.map unpacked) := by
  obtain ⟨-, -, f⟩ := m
  rw [unpacked]
  rfl

def Decoding.packed : Decoding := ⟨unpacked, fun s => by rw [unpacked], unpacked_object⟩

namespace Link

def snapshotRun : List LinkEvent :=
  [.mutate (.apply (fun _ => .sorted) "x" (.string "a")) "s",
    .mutate (.apply (fun _ => .sorted) "k" (.string "a")) "s",
    .connect (.new "c" 64 100 128) .plain, .disconnect,
    .mutate (.apply (fun _ => .sorted) "k" (.string "b")) "s",
    .connect (.new "d" 64 100 128) .plain,
    .mutate (.apply (fun _ => .sorted) "k" (.string "c")) "s"]

def replayRun : List LinkEvent :=
  [.mutate (.apply (fun _ => .sorted) "k" (.string "a")) "s",
    .connect (.new "c" 64 100 128) .plain, .disconnect,
    .mutate (.apply (fun _ => .sorted) "k" (.string "b")) "s",
    .connect (.new "d" 64 100 128) .plain]

def watcher : SodpClient := (SodpClient.new.watch "k" none).1

variable {n : Node}

theorem fresh_plain {id : String} (hopts : n.opts = .plain)
    (hunknown : ∀ key, ∀ sub ∈ n.fanout.subs key, sub.sessionID ≠ id) :
    Fresh n (.new id 64 100 128) := by
  refine ⟨rfl, rfl, Nat.le_add_left 2 126, fun hauth => ?_, hunknown⟩
  rw [hopts] at hauth
  cases hauth

theorem welcome_plain (id : String) (hopts : n.opts = .plain)
    (hlimit : client.watches.keys.length ≤ 64) : Welcome n (.new id 64 100 128) client "k" := by
  refine ⟨by decide, fun _ _ _ _ f hf => ?_, Int.ofNat_le.mpr hlimit⟩
  rw [hopts] at hf
  cases hf

theorem steady_connect {id : String} (hopts : n.opts = .plain)
    (hunknown : ∀ key, ∀ sub ∈ n.fanout.subs key, sub.sessionID ≠ id)
    (hlimit : client.watches.keys.length ≤ 64)
    (hsnapshot : ∀ entry ∈ client.watches.get? "k", 0 < entry.version →
      n.state.deltasSince "k" (Decoding.packed.since Choices.plain.conversions entry.version) =
        none) :
    Steady .packed "k" ⟨n, none, client⟩ (.connect (.new id 64 100 128) .plain) :=
  ⟨fresh_plain hopts hunknown, welcome_plain id hopts hlimit, hsnapshot⟩

theorem snapshotRun_follows :
    ∃ l sess, run (step .packed) (start .plain .new watcher) snapshotRun = some l ∧
      l.sess = some sess ∧ l.client.valueAt "k" = some (.ofJson (l.node.state.get "k").1.toJson) ∧
      (l.node.state.get "k").1.toJson = .string "c" := by
  have hunknown : ∀ key,
      ∀ sub ∈ ((FanoutBus.new.subscribe "k" ⟨"c", 10⟩).removeSession "c").subs key,
        sub.sessionID ≠ "d" := by
    intro key sub hsub
    have hmem := (List.mem_filter.mp hsub).1
    rw [FanoutBus.subs_subscribe] at hmem
    split_ifs at hmem
    · rw [List.mem_singleton.mp hmem]
      decide
    · exact (List.not_mem_nil hmem).elim
  have hok : Along (step .packed) (fun l => Steady .packed "k" l) (start .plain .new watcher)
      snapshotRun := by
    have hoffline : ∀ n c m, Steady .packed "k" ⟨n, none, c⟩ (.mutate m "s") :=
      fun _ _ _ _ h => by cases h
    refine ⟨hoffline _ _ _, hoffline _ _ _, ?_, trivial, hoffline _ _ _, ?_, ?_, trivial⟩
    · exact steady_connect rfl (fun _ _ h => (List.not_mem_nil h).elim) (by decide)
        (by decide +kernel)
    · exact steady_connect rfl hunknown (by decide +kernel) (by decide +kernel)
    · rintro sess ⟨⟩
      exact ⟨by decide, fun _ => rfl⟩
  exact ⟨_, _, rfl, rfl, steady_client_follows .packed ⟨_, rfl, by decide⟩ hok rfl rfl,
    by decide +kernel⟩

theorem replay_leaves_client_behind :
    ∃ l sess, run (step .packed) (start .plain .new watcher) replayRun = some l ∧
      l.sess = some sess ∧ l.client.valueAt "k" = some (.ofJson (.string "a")) ∧
      (l.node.state.get "k").1.toJson = .string "b" :=
  ⟨_, _, rfl, rfl, by decide +kernel, by decide +kernel⟩

end Link

end Sodp.GoServer
