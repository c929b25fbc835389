import Sodp.GoLink

/-!
# A client attached to the bus

Between requests no worker has work, and the streams of the client, of its session and of the bus
are the same. A client follows a key on a stream if it has bound the stream and holds the value of
the server.
-/

namespace Sodp.GoServer
open Function OrderedMap List Option
open Client (SodpClient)

/-! ### A bus at rest -/

namespace FanoutBus
variable {b : FanoutBus}

theorem Resting.subscribe (hb : b.Resting) (key : String) (sub : Subscriber) :
    (b.subscribe key sub).Resting := by
  intro other ch hch
  rw [FanoutBus.subscribe] at hch ⊢
  cases hkey : b.keyChs key with
  | some =>
    simp only [hkey] at hch ⊢
    exact hb other ch hch
  | none =>
    simp only [hkey] at hch ⊢
    by_cases hother : other = key
    · subst hother
      rw [update_self, some.injEq] at hch
      rw [← hch]
      exact getElem?_concat_length
    · rw [update_of_ne hother] at hch
      have hw := hb other ch hch
      rw [List.getElem?_append_left (List.getElem?_eq_some_iff.mp hw).1]
      exact hw

theorem Resting.step (hb : b.Resting) {e : BusEvent} {next : FanoutBus}
    (he : e.betweenRequests = true) (hstep : b.step e = some next) : next.Resting := by
  cases e with
  | subscribe key sub => exact some.inj hstep ▸ hb.subscribe key sub
  | unsubscribe =>
    rw [← some.inj hstep, FanoutBus.unsubscribe]
    split <;> exact hb
  | removeSession => exact some.inj hstep ▸ hb
  | idle ch =>
    rcases idle_eq_some hstep with ⟨key, hw, rfl⟩ | ⟨key, -, -, hw, rfl⟩
    · intro other i hi
      change update b.keyChs key none other = some i at hi
      by_cases hother : other = key
      · rw [hother, update_self] at hi
        cases hi
      · rw [update_of_ne hother] at hi
        have hresting := hb other i hi
        have hne : i ≠ ch := by
          rintro rfl
          rw [hw, some.injEq, Worker.mk.injEq] at hresting
          exact hother hresting.1.symm
        exact (getElem?_setWorker hw i).trans ((if_neg hne).trans hresting)
    · exact hb
  | _ => cases he

theorem filter_subscribe_of_ne {sub : Subscriber} {id : String} (hsub : sub.sessionID ≠ id)
    (key k : String) : ((b.subscribe key sub).subs k).filter (fun sub => sub.sessionID = id) =
      (b.subs k).filter fun sub => sub.sessionID = id := by
  rw [subs_subscribe]
  split_ifs with hk
  · rw [hk, filter_append, filter_cons_of_neg (by simpa using hsub), filter_nil, append_nil]
  · rfl

theorem filter_subs_step {e : BusEvent} {next : FanoutBus} {id : String}
    (he : e.betweenRequests = true) (hforeign : Link.Foreign id e) (hstep : b.step e = some next)
    (key : String) :
    ((next.subs key).filter fun sub => sub.sessionID = id).Perm
      ((b.subs key).filter fun sub => sub.sessionID = id) := by
  cases e with
  | subscribe =>
    rw [← some.inj hstep, filter_subscribe_of_ne hforeign]
  | unsubscribe name sessionID streamID =>
    rw [← some.inj hstep, FanoutBus.unsubscribe]
    cases hfind : (b.subs name).findIdx? fun s => s.sessionID = sessionID ∧
      s.streamID = streamID with
    | none => exact .refl _
    | some =>
      dsimp only
      by_cases hkey : key = name
      · subst hkey
        rw [update_self]
        obtain ⟨hi, hfound, -⟩ := findIdx?_eq_some_iff_getElem.mp hfind
        have hperm := (cons_swapRemove_perm (getElem?_eq_getElem hi)).filter
          fun sub => decide (sub.sessionID = id)
        rw [decide_eq_true_eq] at hfound
        rwa [filter_cons_of_neg] at hperm
        rw [decide_eq_true_eq, hfound.1]
        exact hforeign
      · rw [update_of_ne hkey]
  | removeSession =>
    rw [← some.inj hstep]
    change (((b.subs key).filter _).filter _).Perm _
    rw [List.filter_filter]
    refine List.Perm.of_eq (filter_congr fun sub _ => ?_)
    by_cases hid : sub.sessionID = id
    · simp [hid, Ne.symm hforeign]
    · simp [hid]
  | idle =>
    rcases idle_eq_some hstep with ⟨name, hw, rfl⟩ | ⟨name, -, -, hw, rfl⟩ <;> exact .refl _
  | _ => cases he

end FanoutBus

theorem foldl_post {α : Type*} (g : α → OutMsg) (l : List α) (sess : Session) :
    ∃ queue, l.foldl (fun sess x => sess.post (g x)) sess = { sess with queue := queue } ∧
      ∀ msg ∈ queue, msg ∈ sess.queue ∨ ∃ x ∈ l, msg = g x := by
  induction l generalizing sess with
  | nil => exact ⟨sess.queue, rfl, fun msg hmsg => .inl hmsg⟩
  | cons x l ih =>
    obtain ⟨queue, heq, hqueue⟩ := ih (sess.post (g x))
    refine ⟨queue, ?_, fun msg hmsg => ?_⟩
    · rw [foldl_cons, heq, Session.post_eq]
    · rcases hqueue msg hmsg with hold | ⟨y, hy, rfl⟩
      · rw [Session.post_eq] at hold
        split_ifs at hold
        · rcases mem_append.mp hold with hold | hnew
          · exact .inl hold
          · exact .inr ⟨x, mem_cons_self, mem_singleton.mp hnew⟩
        · exact .inl hold
      · exact .inr ⟨y, mem_cons_of_mem x hy, rfl⟩

/-! ### Session and client in step -/

structure Attached (n : Node) (sess : Session) (c : SodpClient) : Prop where
  resting : n.fanout.Resting
  listening : n.fanout.Listening
  queue : sess.queue = []
  room : 2 ≤ sess.backpressure
  bound : Bound sess.watches c
  subs : ∀ key, ∀ sub ∈ n.fanout.subs key, sub.sessionID = sess.id →
    sess.watches.get? sub.streamID = some key
  nonzero : ∀ streamID key, sess.watches.get? streamID = some key → streamID ≠ 0

structure Live (key : String) (sid : ℕ) (n : Node) (sess : Session) (c : SodpClient) : Prop where
  watched : sess.watches.get? sid = some key
  only : ∀ streamID, sess.watches.get? streamID = some key → streamID = sid
  sub : (n.fanout.subs key).filter (fun sub => sub.sessionID = sess.id) = [⟨sess.id, sid⟩]
  shows : c.Shows sid key (.ofJson (n.state.get key).1.toJson)

structure Kin (sess sess' : Session) : Prop where
  id : sess'.id = sess.id
  sub : sess'.sub = sess.sub
  claims : sess'.claims = sess.claims
  authed : sess'.authed = sess.authed
  maxWatches : sess'.maxWatches = sess.maxWatches
  backpressure : sess'.backpressure = sess.backpressure

section
variable {sess sess' : Session} (h : Kin sess sess')
include h

theorem Kin.trans {sess'' : Session} (h' : Kin sess' sess'') :
    Kin sess sess'' :=
  ⟨h'.id.trans h.id, h'.sub.trans h.sub, h'.claims.trans h.claims, h'.authed.trans h.authed,
    h'.maxWatches.trans h.maxWatches, h'.backpressure.trans h.backpressure⟩

theorem Kin.posted (queue : List OutMsg) :
    Kin sess { sess' with queue := queue } :=
  ⟨h.id, h.sub, h.claims, h.authed, h.maxWatches, h.backpressure⟩

theorem Kin.drained : Kin sess sess'.drained :=
  ⟨h.id, h.sub, h.claims, h.authed, h.maxWatches, h.backpressure⟩

end

variable {streamID : ℕ}

section Steps
variable {n : Node} {sess sess' : Session} {c c' : SodpClient} {key : String} {sid : ℕ}

theorem Attached.congr (h : Attached n sess c) {n' : Node} (hfanout : n'.fanout = n.fanout)
    (hkin : Kin sess sess') (hwatches : sess'.watches = sess.watches) (hqueue : sess'.queue = [])
    (hbound : Bound sess'.watches c') : Attached n' sess' c' := by
  refine ⟨hfanout ▸ h.resting, hfanout ▸ h.listening, hqueue, hkin.backpressure ▸ h.room, hbound,
    ?_, ?_⟩
  · rw [hfanout, hkin.id, hwatches]
    exact h.subs
  · rw [hwatches]
    exact h.nonzero

theorem Attached.post_first (h : Attached n sess c) (msg : OutMsg) :
    sess.post msg = { sess with queue := [msg] } := by
  have hroom := h.room
  rw [Session.post, h.queue, if_pos (by rw [length_nil]; omega)]
  rfl

theorem Attached.opened (h : Attached n sess c) {name : String}
    (hnew : sess.watches.get? streamID = none) (hzero : streamID ≠ 0)
    (hkin : Kin sess sess') (hwatches : sess'.watches = sess.watches.insert streamID name)
    (hqueue : sess'.queue = []) (hbound : Bound sess'.watches c') :
    Attached { n with fanout := n.fanout.subscribe name ⟨sess.id, streamID⟩ } sess' c' := by
  refine ⟨h.resting.subscribe _ _, h.listening.subscribe _ _, hqueue, hkin.backpressure ▸ h.room,
    hbound, ?_, ?_⟩
  · intro k sub hsub hid
    rw [hkin.id] at hid
    rw [hwatches, get?_insert]
    rw [FanoutBus.subs_subscribe] at hsub
    have hold : ∀ j, sub ∈ n.fanout.subs j → (if sub.streamID = streamID then some name else
        sess.watches.get? sub.streamID) = some j := by
      intro j hj
      have hget := h.subs j sub hj hid
      rw [if_neg, hget]
      intro hs
      rw [hs, hnew] at hget
      cases hget
    split_ifs at hsub with hk
    · rcases mem_append.mp hsub with hsub | hsub
      · rw [hk]
        exact hold name hsub
      · rw [mem_singleton.mp hsub, if_pos rfl, hk]
    · exact hold k hsub
  · intro s k hs
    rw [hwatches, get?_insert] at hs
    split_ifs at hs with hstream
    · exact hstream ▸ hzero
    · exact h.nonzero s k hs

theorem Bound.insert (h : Bound sess.watches c) (name : String)
    (hnew : sess.watches.get? streamID = none) : Bound (sess.watches.insert streamID name) c := by
  intro s k hs
  have hold := h s k hs
  rw [get?_insert_of_ne _ _ _]
  · exact hold
  · rintro rfl
    rw [hnew] at hold
    cases hold

theorem Live.congr (h : Live key sid n sess c) {n' : Node}
    (hsubs : n'.fanout.subs key = n.fanout.subs key) (hstate : n'.state = n.state)
    (hkin : Kin sess sess') (hwatches : sess'.watches = sess.watches)
    (hshows : c'.Shows sid key (.ofJson (n.state.get key).1.toJson)) :
    Live key sid n' sess' c' := by
  refine ⟨?_, ?_, ?_, ?_⟩
  · rw [hwatches]
    exact h.watched
  · rw [hwatches]
    exact h.only
  · rw [hsubs, hkin.id]
    exact h.sub
  · rw [hstate]
    exact hshows

theorem Live.opened (h : Live key sid n sess c) {name : String}
    (hname : name ≠ key) (hnew : sess.watches.get? streamID = none) (hkin : Kin sess sess')
    (hwatches : sess'.watches = sess.watches.insert streamID name)
    (hshows : c'.Shows sid key (.ofJson (n.state.get key).1.toJson)) :
    Live key sid { n with fanout := n.fanout.subscribe name ⟨sess.id, streamID⟩ } sess' c' := by
  have hne : sid ≠ streamID := by
    rintro rfl
    have hwatched := h.watched
    rw [hnew] at hwatched
    cases hwatched
  refine ⟨?_, ?_, ?_, hshows⟩
  · rw [hwatches, get?_insert_of_ne _ hne]
    exact h.watched
  · intro s hs
    rw [hwatches, get?_insert] at hs
    split_ifs at hs
    · exact absurd (some.inj hs) hname
    · exact h.only s hs
  · dsimp only
    rw [FanoutBus.subs_subscribe, if_neg (Ne.symm hname), hkin.id]
    exact h.sub

theorem live_opened (h : Attached n sess c) (hunseen : ∀ s, sess.watches.get? s ≠ some key)
    (hkin : Kin sess sess') (hwatches : sess'.watches = sess.watches.insert sid key)
    (hshows : c'.Shows sid key (.ofJson (n.state.get key).1.toJson)) :
    Live key sid { n with fanout := n.fanout.subscribe key ⟨sess.id, sid⟩ } sess' c' := by
  refine ⟨?_, ?_, ?_, hshows⟩
  · rw [hwatches, get?_insert_self]
  · intro s hs
    rw [hwatches, get?_insert] at hs
    split_ifs at hs with hstream
    · exact hstream
    · exact absurd hs (hunseen s)
  · dsimp only
    have hnone : (n.fanout.subs key).filter (fun sub => sub.sessionID = sess.id) = [] := by
      rw [filter_eq_nil_iff]
      intro sub hsub hid
      rw [decide_eq_true_eq] at hid
      exact hunseen _ (h.subs key sub hsub hid)
    rw [FanoutBus.subs_subscribe, if_pos rfl, filter_append, hkin.id, hnone]
    simp

end Steps

/-! ### Coming back -/

theorem Answer.queue_cases {c d : Conn} {key : String}
    (h : Answer c streamID key d) (hempty : c.2.queue = []) : ∃ queue,
      (d = (c.1, { c.2 with queue := queue }) ∧ ∀ msg ∈ queue, msg.read = none) ∨
      (d = ((openWatch c streamID key).1, { (openWatch c streamID key).2 with queue := queue }) ∧
        ∀ msg ∈ queue, msg.For (c.2.watches.insert streamID key) (· = key)) := by
  have hself : (c.2.watches.insert streamID key).get? streamID = some key :=
    get?_insert_self ..
  have hposted : ∀ {α : Type} {g : α → OutMsg} {l : List α} {msg : OutMsg},
      (msg ∈ c.2.queue ∨ ∃ x ∈ l, msg = g x) → ∃ x ∈ l, msg = g x := by
    intro α g l msg hmsg
    rcases hmsg with hold | hnew
    · rw [hempty] at hold
      exact absurd hold not_mem_nil
    · exact hnew
  cases h with
  | refused code message =>
    obtain ⟨queue, heq, hqueue⟩ := foldl_post id [.error streamID code message] c.2
    refine ⟨queue, .inl ⟨congrArg (Prod.mk c.1) heq, fun msg hmsg => ?_⟩⟩
    obtain ⟨x, hx, rfl⟩ := hposted (hqueue msg hmsg)
    rw [mem_singleton.mp hx]
    rfl
  | snapshot params =>
    obtain ⟨queue, heq, hqueue⟩ := foldl_post id [.stateInit streamID key _ _ _ params]
      (openWatch c streamID key).2
    refine ⟨queue, .inr ⟨congrArg (Prod.mk _) heq, fun msg hmsg => ?_⟩⟩
    obtain ⟨x, hx, rfl⟩ := hposted (hqueue msg hmsg)
    rw [mem_singleton.mp hx]
    exact ⟨hself, rfl⟩
  | replay deltas =>
    obtain ⟨queue, heq, hqueue⟩ := foldl_post (OutMsg.delta streamID) deltas
      (openWatch c streamID key).2
    refine ⟨queue, .inr ⟨congrArg (Prod.mk _) heq, fun msg hmsg => ?_⟩⟩
    obtain ⟨x, hx, rfl⟩ := hposted (hqueue msg hmsg)
    exact ⟨key, hself, rfl⟩

theorem OutMsg.read_of_shows {msg : OutMsg} (h : msg.shows = none) : msg.read = none := by
  cases msg with
  | stateInit | delta => cases h
  | _ => rfl

theorem OutMsg.for_of_read {msg : OutMsg} (h : msg.read = none) (watches : OrderedMap ℕ String)
    (P : String → Prop) : msg.For watches P := by
  cases msg with
  | stateInit | delta => cases h
  | _ => trivial

theorem foldl_hears_of_none {msgs : List OutMsg} (h : ∀ msg ∈ msgs, msg.read = none)
    (c : SodpClient) : msgs.foldl hears c = c := by
  induction msgs generalizing c with
  | nil => rfl
  | cons msg msgs ih =>
    rw [foldl_cons, hears, h msg mem_cons_self]
    exact ih (fun m hm => h m (mem_cons_of_mem msg hm)) c

theorem OutMsg.For.imp {watches : OrderedMap ℕ String} {P Q : String → Prop}
    (hPQ : ∀ k, P k → Q k) {msg : OutMsg} (h : msg.For watches P) : msg.For watches Q := by
  cases msg with
  | stateInit => exact ⟨h.1, hPQ _ h.2⟩
  | delta =>
    obtain ⟨k, hk, hP⟩ := h
    exact ⟨k, hk, hPQ k hP⟩
  | _ => trivial

structure Arriving (n₀ : Node) (sess₀ : Session) (next : ℕ) (n : Node) (sess : Session)
    (c : SodpClient) : Prop where
  attached : Attached n sess c
  state : n.state = n₀.state
  opts : n.opts = n₀.opts
  kin : Kin sess₀ sess
  below : ∀ streamID key, sess.watches.get? streamID = some key → streamID < next
  few : sess.watches.keys.length + 10 ≤ next

section Arriving
variable {n₀ n : Node} {sess₀ sess : Session} {c : SodpClient} {next : ℕ} {key name : String}
  {d : Conn}

section
variable (h : Arriving n₀ sess₀ next n sess c)
include h

theorem Arriving.unused : sess.watches.get? next = none := by
  cases hget : sess.watches.get? next with
  | none => rfl
  | some k => exact absurd (h.below next k hget) (Nat.lt_irrefl next)

theorem Arriving.length_insert (name : String) :
    (sess.watches.insert next name).keys.length = sess.watches.keys.length + 1 := by
  rw [keys_insert_of_lt, length_append, length_singleton]
  intro s hs
  obtain ⟨k, hk⟩ := ne_none_iff_exists'.mp ((get?_eq_none_iff _ s).not.mpr (not_not_intro hs))
  exact h.below s k hk

theorem Arriving.answer
    (hanswer : Answer (n, sess) next name d) :
    Arriving n₀ sess₀ (next + 1) d.1 d.2.drained (d.2.queue.foldl hears c) := by
  have hfew := h.few
  have hbelow : ∀ s k, sess.watches.get? s = some k → s < next + 1 :=
    fun s k hs => (h.below s k hs).trans (Nat.lt_succ_self _)
  obtain ⟨_, ⟨rfl, hqueue⟩ | ⟨rfl, hqueue⟩⟩ := hanswer.queue_cases h.attached.queue
  · refine ⟨?_, h.state, h.opts, h.kin.trans ⟨rfl, rfl, rfl, rfl, rfl, rfl⟩, hbelow,
      hfew.trans (Nat.le_succ _)⟩
    rw [foldl_hears_of_none hqueue]
    exact h.attached.congr rfl ⟨rfl, rfl, rfl, rfl, rfl, rfl⟩ rfl rfl h.attached.bound
  · have hbound := (h.attached.bound.insert name h.unused).foldl_hears hqueue
    refine ⟨?_, h.state, h.opts, h.kin.trans ⟨rfl, rfl, rfl, rfl, rfl, rfl⟩, fun s k hs => ?_, ?_⟩
    · exact h.attached.opened h.unused (by omega) ⟨rfl, rfl, rfl, rfl, rfl, rfl⟩ rfl rfl hbound
    · change (sess.watches.insert next name).get? s = some k at hs
      rw [get?_insert] at hs
      split_ifs at hs
      · omega
      · exact hbelow s k hs
    · change (sess.watches.insert next name).keys.length + 10 ≤ next + 1
      rw [h.length_insert]
      omega

end

theorem Live.answer {sid : ℕ} (h : Live key sid n sess c) (harr : Arriving n₀ sess₀ next n sess c)
    (hname : name ≠ key) (hanswer : Answer (n, sess) next name d) :
    Live key sid d.1 d.2.drained (d.2.queue.foldl hears c) := by
  obtain ⟨_, ⟨rfl, hqueue⟩ | ⟨rfl, hqueue⟩⟩ := hanswer.queue_cases harr.attached.queue
  · dsimp only
    rw [foldl_hears_of_none hqueue]
    exact h.congr rfl rfl ⟨rfl, rfl, rfl, rfl, rfl, rfl⟩ rfl h.shows
  · have hne : sid ≠ next := (harr.below sid key h.watched).ne
    refine h.opened hname harr.unused ⟨rfl, rfl, rfl, rfl, rfl, rfl⟩ rfl ?_
    refine shows_foldl_hears h.shows (harr.attached.bound.insert name harr.unused) ?_
      fun msg hmsg => (hqueue msg hmsg).imp fun k hk => hk ▸ hname
    rw [get?_insert_of_ne _ hne]
    exact h.watched

theorem unseen_answer (hunseen : ∀ s, sess.watches.get? s ≠ some key)
    (harr : Arriving n₀ sess₀ next n sess c) (hname : name ≠ key)
    (hanswer : Answer (n, sess) next name d) (s : ℕ) : d.2.drained.watches.get? s ≠ some key := by
  obtain ⟨-, ⟨rfl, -⟩ | ⟨rfl, -⟩⟩ := hanswer.queue_cases harr.attached.queue
  · exact hunseen s
  · change (sess.watches.insert next name).get? s ≠ some key
    rw [get?_insert]
    split_ifs
    · exact fun h => hname (some.inj h)
    · exact hunseen s

theorem live_snapshot (harr : Arriving n₀ sess₀ next n sess c) (hwatching : Watching key c)
    (hunseen : ∀ s, sess.watches.get? s ≠ some key) {params : OrderedMap String GoValue}
    (hd : d = sendStateInit (openWatch (n, sess) next key) next key params) :
    Live key next d.1 d.2.drained (d.2.queue.foldl hears c) := by
  have hroom : sess.queue.length < sess.backpressure := by
    have := harr.attached.room
    rw [harr.attached.queue, length_nil]
    omega
  have hpost : ∀ msg, (openWatch (n, sess) next key).2.post msg =
      { (openWatch (n, sess) next key).2 with queue := [msg] } := by
    intro msg
    refine (if_pos hroom).trans ?_
    change { (openWatch (n, sess) next key).2 with queue := sess.queue ++ [msg] } = _
    rw [harr.attached.queue]
    rfl
  subst hd
  rw [sendStateInit, hpost]
  refine live_opened harr.attached hunseen ⟨rfl, rfl, rfl, rfl, rfl, rfl⟩ rfl ?_
  exact shows_hears_stateInit hwatching next _ _ _ params

def Due (dec : Decoding) (ch : Choices) (n₀ : Node) (key : String)
    (watches : List (String × Client.WatchEntry)) (n : Node) (sess : Session) (c : SodpClient) :
    Prop :=
  (∃ sid, Live key sid n sess c) ∧ key ∉ watches.map Prod.fst ∨
    (∀ s, sess.watches.get? s ≠ some key) ∧ ∃ entry, (key, entry) ∈ watches ∧
      0 < entry.callbacks ∧ (0 < entry.version →
        n₀.state.deltasSince key (dec.since ch.conversions entry.version) = none)

section Requests
variable {dec : Decoding} {ch : Choices} {watches : List (String × Client.WatchEntry)}
  {entry : Client.WatchEntry}

theorem Due.skip (h : Due dec ch n₀ key ((name, entry) :: watches) n sess c)
    (hcallbacks : entry.callbacks = 0) : Due dec ch n₀ key watches n sess c := by
  rcases h with ⟨hlive, hnot⟩ | ⟨hunseen, own, hown, hpos, hsince⟩
  · exact .inl ⟨hlive, fun hmem => hnot (mem_cons_of_mem _ hmem)⟩
  · refine .inr ⟨hunseen, own, ?_, hpos, hsince⟩
    rcases mem_cons.mp hown with heq | hmem
    · rw [(Prod.mk.inj heq).2, hcallbacks] at hpos
      exact absurd hpos (Nat.lt_irrefl 0)
    · exact hmem

theorem Due.serve (h : Due dec ch n₀ key ((name, entry) :: watches) n sess c)
    (harr : Arriving n₀ sess₀ next n sess c) (hwatching : Watching key c)
    (hnew : name ∉ watches.map Prod.fst) (hanswer : Answer (n, sess) next name d)
    (hsnapshot : name = key → (0 < entry.version →
        n₀.state.deltasSince key (dec.since ch.conversions entry.version) = none) →
      ∃ params, d = sendStateInit (openWatch (n, sess) next key) next key params) :
    Due dec ch n₀ key watches d.1 d.2.drained (d.2.queue.foldl hears c) := by
  rcases h with ⟨⟨sid, hlive⟩, hnot⟩ | ⟨hunseen, own, hown, hpos, hsince⟩
  · rw [map_cons, mem_cons, not_or] at hnot
    exact .inl ⟨⟨sid, hlive.answer harr (Ne.symm hnot.1) hanswer⟩, hnot.2⟩
  · rcases mem_cons.mp hown with heq | hmem
    · obtain ⟨rfl, rfl⟩ := Prod.mk.inj heq
      obtain ⟨params, hd⟩ := hsnapshot rfl hsince
      exact .inl ⟨⟨next, live_snapshot harr hwatching hunseen hd⟩, hnew⟩
    · have hname : name ≠ key := fun heq => hnew (heq ▸ mem_map_of_mem hmem)
      exact .inr ⟨unseen_answer hunseen harr hname hanswer, own, hmem, hpos, hsince⟩

theorem live_requests (dec : Decoding) (ch : Choices) (hauth : n₀.opts.requireAuth → sess₀.authed)
    {client : SodpClient} (hwelcome : Link.Welcome n₀ sess₀ client key)
    (hnodup : (watches.map Prod.fst).Nodup)
    (hcount : next + watches.length ≤ 10 + client.watches.keys.length)
    (harr : Arriving n₀ sess₀ next n sess c) (hwatching : Watching key c)
    (hdue : Due dec ch n₀ key watches n sess c) (seq : ℕ) :
    ∃ n' sess' c', (requests watches next seq).foldl (Link.serve dec ch) ⟨n, some sess, c⟩ =
        ⟨n', some sess', c'⟩ ∧
      Attached n' sess' c' ∧ Watching key c' ∧ ∃ sid, Live key sid n' sess' c' := by
  induction watches generalizing next seq n sess c with
  | nil =>
    rcases hdue with ⟨hlive, -⟩ | ⟨-, entry, hentry, -⟩
    · exact ⟨n, sess, c, rfl, harr.attached, hwatching, hlive⟩
    · exact absurd hentry not_mem_nil
  | cons watch watches ih =>
    obtain ⟨name, entry⟩ := watch
    rw [map_cons, nodup_cons] at hnodup
    rw [length_cons] at hcount
    have hfew := harr.few
    rw [requests]
    by_cases hcallbacks : entry.callbacks = 0
    · rw [if_pos hcallbacks]
      exact ih hnodup.2 (by omega) harr hwatching (hdue.skip hcallbacks) seq
    · have hauthed : n.opts.requireAuth → sess.authed := by
        rw [harr.opts, harr.kin.authed]
        exact hauth
      have hnext : next ≠ 0 := by omega
      obtain ⟨hanswer, hsnapshot⟩ :=
        dispatch_request (c := (n, sess)) dec ch hauthed name hnext entry seq
      rw [if_neg hcallbacks, foldl_cons, Link.serve]
      dsimp only
      rw [Link.hear, handleFrames_read]
      refine ih hnodup.2 (by omega) (harr.answer hanswer) (hwatching.foldl_hears _) ?_ (seq + 1)
      refine hdue.serve harr hwatching hnodup.1 hanswer fun hname hsince => ?_
      subst hname
      have hallowed : n.opts.Allows sess name .read :=
        harr.opts ▸ hwelcome.allowed sess harr.kin.id harr.kin.sub harr.kin.claims
      have hlimit : (sess.watches.keys.length : ℤ) < sess.maxWatches := by
        have := hwelcome.limit
        rw [harr.kin.maxWatches]
        omega
      exact hsnapshot hwelcome.valid hallowed hlimit fun hversion => harr.state ▸ hsince hversion

end Requests

end Arriving

/-! ### Changes while the client is connected -/

theorem watched_streamForKey (sess : Session) {sid : ℕ} {key : String}
    (h : sess.watches.get? sid = some key) (range : KeyOrder ℕ) :
    sess.watches.get? (sess.streamForKey range key) = some key := by
  have hmem : sid ∈ range.order sess.watches.keys :=
    (range.perm _).mem_iff.mpr ((get?_eq_some_iff _ _ _).mp h).1
  rw [Session.streamForKey]
  cases hfind : (range.order sess.watches.keys).find? fun s => sess.watches.get? s = some key with
  | none => exact absurd (by simpa using h) (find?_eq_none.mp hfind sid hmem)
  | some => simpa using find?_some hfind

variable {delta : DeltaEntry}

section Changes
variable {n : Node} {sess sess' : Session} {c : SodpClient} {key : String} {sid : ℕ} {m : Mutation}
  {msgs : List OutMsg}

theorem Live.other (h : Live key sid n sess c) (hatt : Attached n sess c) (hm : m.key ≠ key)
    (hkin : Kin sess sess') (hwatches : sess'.watches = sess.watches)
    (hmsgs : ∀ msg ∈ msgs, msg.For sess.watches (· ≠ key)) :
    Live key sid { n with state := (m.run n.state).1 } sess' (msgs.foldl hears c) := by
  have hshows := shows_foldl_hears h.shows hatt.bound h.watched hmsgs
  have hlive : Live key sid n sess' (msgs.foldl hears c) := h.congr rfl rfl hkin hwatches hshows
  refine ⟨hlive.watched, hlive.only, hlive.sub, ?_⟩
  rw [Mutation.get_run_of_ne _ (Ne.symm hm)]
  exact hshows

theorem Live.unchanged (h : Live key sid n sess c) (hrun : (m.run n.state).2 = none)
    (hkin : Kin sess sess') (hwatches : sess'.watches = sess.watches)
    (hmsgs : ∀ msg ∈ msgs, msg.read = none) :
    Live key sid { n with state := (m.run n.state).1 } sess' (msgs.foldl hears c) := by
  rw [foldl_hears_of_none hmsgs, Mutation.run_of_none hrun]
  exact h.congr rfl rfl hkin hwatches h.shows

theorem Live.changed (h : Live key sid n sess c) (hkey : key ≠ "") (hm : m.key = key)
    (hshown : m.Shown n.state) (hrun : (m.run n.state).2 = some delta)
    (hkin : Kin sess sess') (hwatches : sess'.watches = sess.watches)
    (hmsgs : ∀ msg ∈ msgs, msg.read = none) :
    Live key sid { n with state := (m.run n.state).1 } sess'
      ((msgs ++ [OutMsg.delta sid delta]).foldl hears c) := by
  subst hm
  rcases hshown.run with hnone | ⟨_, _, heq, happ⟩
  · rw [hnone] at hrun
    cases hrun
  · rw [heq] at hrun ⊢
    cases hrun
    have hlive : Live m.key sid n sess' c := h.congr rfl rfl hkin hwatches h.shows
    refine ⟨hlive.watched, hlive.only, hlive.sub, ?_⟩
    rw [foldl_append, foldl_hears_of_none hmsgs]
    rw [StateStore.get_record, if_pos rfl]
    exact h.shows.delta hkey happ n.state.nextVersion n.state.nextVersion

end Changes

def sentTo (n : Node) (m : Mutation) (sender id : String) : List (Subscriber × DeltaEntry) :=
  match (m.run n.state).2 with
  | none => []
  | some delta =>
    if (n.fanout.keyChs m.key).isSome then
      ((n.fanout.subs m.key).filter fun sub => sub.sessionID = id ∧ sub.sessionID ≠ sender).map
        fun sub => (sub, delta)
    else []

theorem spread_commit {n : Node} (hn : n.fanout.Resting) (m : Mutation) (sender : String)
    (sess : Session) :
    Link.spread (n.commit m sender, sess) m.key = ({ n with state := (m.run n.state).1 },
      (sentTo n m sender sess.id).foldl
        (fun sess msg => sess.post (.delta msg.1.streamID msg.2)) sess) := by
  rw [Link.spread, deliver_commit hn, sentTo]
  refine Prod.ext ?_ ?_
  · rw [Node.commit]
    cases (m.run n.state).2 with
    | none | some delta => rfl
  · dsimp only
    cases (m.run n.state).2 with
    | none => rfl
    | some =>
      split_ifs
      · congr 1
        rw [List.filter_map, List.filter_filter]
        simp
      · rfl

theorem spread_resting {n : Node} (hn : n.fanout.Resting) (sess : Session) (key : String) :
    Link.spread (n, sess) key = (n, sess) := by
  rw [Link.spread, hn.deliver_self]
  rfl

theorem sentTo_sender (n : Node) (m : Mutation) (id : String) : sentTo n m id id = [] := by
  rw [sentTo]
  cases (m.run n.state).2 with
  | none => rfl
  | some => simp

section Sent
variable {n : Node} {sess : Session} {c : SodpClient} {key : String} {sid : ℕ} {m : Mutation}
  {sender : String}

theorem Attached.sentTo_for (h : Attached n sess c) {msg : Subscriber × DeltaEntry}
    (hmsg : msg ∈ sentTo n m sender sess.id) : sess.watches.get? msg.1.streamID = some m.key := by
  rw [sentTo] at hmsg
  cases hrun : (m.run n.state).2 with
  | none => simp [hrun] at hmsg
  | some =>
    simp only [hrun] at hmsg
    split_ifs at hmsg
    · obtain ⟨sub, hsub, rfl⟩ := mem_map.mp hmsg
      rw [mem_filter, decide_eq_true_eq] at hsub
      exact h.subs m.key sub hsub.1 hsub.2.1
    · exact absurd hmsg not_mem_nil

theorem Live.sentTo (h : Live key sid n sess c) (hatt : Attached n sess c) (hm : m.key = key)
    (hsender : sender ≠ sess.id) (hrun : (m.run n.state).2 = some delta) :
    sentTo n m sender sess.id = [(⟨sess.id, sid⟩, delta)] := by
  subst hm
  have hne : n.fanout.subs m.key ≠ [] := by
    intro hnil
    have hsub := h.sub
    rw [hnil] at hsub
    cases hsub
  have hfilter : (n.fanout.subs m.key).filter (fun sub =>
      decide (sub.sessionID = sess.id ∧ sub.sessionID ≠ sender)) = [⟨sess.id, sid⟩] := by
    rw [← h.sub]
    refine filter_congr fun sub _ => ?_
    by_cases hid : sub.sessionID = sess.id
    · simp [hid, Ne.symm hsender]
    · simp [hid]
  rw [GoServer.sentTo, hrun]
  dsimp only
  rw [if_pos (hatt.listening m.key hne), hfilter]
  rfl

theorem Live.sendDeltaDirect (h : Live key sid n sess c) (hatt : Attached n sess c)
    (hdelta : delta.key = key) (range : KeyOrder ℕ) (result : OutMsg) :
    sendDeltaDirect { sess with queue := [result] } range delta =
      { sess with queue := [result, .delta sid delta] } := by
  have hstream : Session.streamForKey { sess with queue := [result] } range key = sid :=
    h.only _ (watched_streamForKey { sess with queue := [result] } h.watched range)
  have hroom : [result].length < sess.backpressure := by
    have := hatt.room
    rw [length_singleton]
    omega
  rw [GoServer.sendDeltaDirect, hdelta, hstream, if_neg (hatt.nonzero sid key h.watched)]
  exact if_pos hroom

theorem sendDeltaDirect_cases (sess : Session) (delta : DeltaEntry) (range : KeyOrder ℕ)
    (result : OutMsg) : ∃ queue, sendDeltaDirect { sess with queue := [result] } range delta =
        { sess with queue := queue } ∧
      ∀ msg ∈ queue, msg = result ∨ msg.For sess.watches (· = delta.key) := by
  rw [GoServer.sendDeltaDirect]
  split_ifs with hzero
  · exact ⟨[result], rfl, fun msg hmsg => .inl (mem_singleton.mp hmsg)⟩
  · obtain ⟨queue, heq, hqueue⟩ := foldl_post
      (fun s => OutMsg.delta s delta) [Session.streamForKey _ range delta.key]
      { sess with queue := [result] }
    refine ⟨queue, heq, fun msg hmsg => ?_⟩
    rcases hqueue msg hmsg with hold | ⟨s, hs, rfl⟩
    · exact .inl (mem_singleton.mp hold)
    · refine .inr ⟨delta.key, ?_, rfl⟩
      rw [mem_singleton.mp hs]
      exact (streamForKey_cases { sess with queue := [result] } range delta.key).resolve_left hzero

end Sent

end Sodp.GoServer
