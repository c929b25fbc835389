import Sodp.GoServerSteps

/-!
# Stream ids of a Go session

The ids of a session come from two sources that know nothing of each other: the client chooses some,
and the server's counter, which starts at 10 as well, gives out the rest. An id that is used again
while it is live overwrites the watch entry, and the old subscription stays in the bus.
-/

namespace Sodp.GoServer
open Transition Function OrderedMap List Option Server

/-! ### Subscriber lists -/

variable {key : String}

namespace FanoutBus

theorem subs_unsubscribe_of_ne {b : FanoutBus} {k sessionID : String} {streamID : ℕ}
    (hk : k ≠ key) : (b.unsubscribe key sessionID streamID).subs k = b.subs k := by
  rw [unsubscribe]
  split
  · rfl
  · exact update_of_ne hk ..

theorem count_unsubscribe (b : FanoutBus) (key sessionID : String) (streamID : ℕ) (s : Subscriber) :
    ((b.unsubscribe key sessionID streamID).subs key).count s =
      (b.subs key).count s - if s = ⟨sessionID, streamID⟩ then 1 else 0 := by
  rw [unsubscribe]
  cases hfind : (b.subs key).findIdx? fun s => s.sessionID = sessionID ∧ s.streamID = streamID with
  | none =>
    split_ifs with hs
    · rw [hs, count_eq_zero_of_not_mem]
      intro hmem
      have := findIdx?_eq_none_iff.mp hfind _ hmem
      simp at this
    · rfl
  | some i =>
    obtain ⟨hi, hmatch, -⟩ := findIdx?_eq_some_iff_getElem.mp hfind
    have helem : (b.subs key)[i]? = some ⟨sessionID, streamID⟩ := by
      rw [getElem?_eq_getElem hi]
      obtain ⟨hs, hn⟩ := of_decide_eq_true hmatch
      rw [← hs, ← hn]
    have hcount := (cons_swapRemove_perm helem).count_eq s
    rw [count_cons] at hcount
    dsimp only
    rw [update_self, ← hcount]
    by_cases hs : s = ⟨sessionID, streamID⟩
    · simp [hs]
    · simp [hs, Ne.symm hs]

end FanoutBus

/-! ### Watch table and subscriptions -/

structure Synced (n : Node) (sess : Session) : Prop where
  watched : ∀ streamID key, sess.watches.get? streamID = some key ↔
    ⟨sess.id, streamID⟩ ∈ n.fanout.subs key
  once : ∀ streamID key, (n.fanout.subs key).count ⟨sess.id, streamID⟩ ≤ 1

def FreshAct (c : Conn) : Act → Prop
  | .watch _ streamID _ => c.2.watches.get? streamID = none
  | _ => True

namespace Synced
variable {n m : Node} {sess next : Session}

theorem congr (h : Synced n sess) (hid : next.id = sess.id) (hwatches : next.watches = sess.watches)
    (hsubs : ∀ key streamID, (m.fanout.subs key).count ⟨sess.id, streamID⟩ =
      (n.fanout.subs key).count ⟨sess.id, streamID⟩) : Synced m next := by
  refine ⟨?_, ?_⟩
  · intro streamID key
    rw [hwatches, hid, h.watched, ← count_pos_iff, ← count_pos_iff, hsubs]
  · intro streamID key
    rw [hid, hsubs]
    exact h.once streamID key

theorem post (h : Synced n sess) (msg : OutMsg) : Synced n (sess.post msg) := by
  rw [Session.post_eq]
  exact h.congr rfl rfl fun _ _ => rfl

variable {streamID : ℕ}

theorem not_mem (h : Synced n sess) (hfresh : sess.watches.get? streamID = none) (key : String) :
    ⟨sess.id, streamID⟩ ∉ n.fanout.subs key := by
  rw [← h.watched, hfresh]
  exact fun hsome => by cases hsome

theorem opened (h : Synced n sess) (hfresh : sess.watches.get? streamID = none)
    (hid : next.id = sess.id) (hwatches : next.watches = sess.watches.insert streamID key) :
    Synced { n with fanout := n.fanout.subscribe key ⟨sess.id, streamID⟩ } next := by
  refine ⟨?_, ?_⟩
  · intro s k
    rw [hwatches, hid, get?_insert, FanoutBus.subs_subscribe]
    by_cases hs : s = streamID
    · subst hs
      rw [if_pos rfl, some.injEq]
      split_ifs with hk
      · simp [hk]
      · exact ⟨fun heq => absurd heq.symm hk, fun hmem => absurd hmem (h.not_mem hfresh k)⟩
    · rw [if_neg hs, h.watched]
      split_ifs with hk
      · simp [hk, hs]
      · rfl
  · intro s k
    rw [hid, FanoutBus.subs_subscribe]
    split_ifs
    · rw [count_append]
      by_cases hs : s = streamID
      · subst hs
        rw [count_eq_zero_of_not_mem (h.not_mem hfresh key)]
        simp
      · have hone := h.once s key
        have hzero : [(⟨sess.id, streamID⟩ : Subscriber)].count ⟨sess.id, s⟩ = 0 := by
          simp [Ne.symm hs]
        omega
    · exact h.once s k

theorem closed (h : Synced n sess) (hlive : sess.watches.get? streamID = some key) :
    Synced { n with fanout := n.fanout.unsubscribe key sess.id streamID }
      { sess with watches := sess.watches.erase streamID } := by
  have hcount : ∀ s k, ((n.fanout.unsubscribe key sess.id streamID).subs k).count ⟨sess.id, s⟩ =
      if s = streamID then 0 else (n.fanout.subs k).count ⟨sess.id, s⟩ := by
    intro s k
    by_cases hk : k = key
    · subst hk
      rw [FanoutBus.count_unsubscribe]
      have hone := h.once s k
      split_ifs with h₁ h₂ h₂
      · omega
      · exact absurd (congrArg Subscriber.streamID h₁) h₂
      · exact absurd (by rw [h₂]) h₁
      · rfl
    · rw [FanoutBus.subs_unsubscribe_of_ne hk]
      split_ifs with hs
      · refine count_eq_zero_of_not_mem fun hmem => hk ?_
        rw [hs, ← h.watched, hlive, some.injEq] at hmem
        exact hmem.symm
      · rfl
  refine ⟨?_, ?_⟩
  · intro s k
    rw [← count_pos_iff, hcount]
    by_cases hs : s = streamID
    · rw [if_pos hs, hs, get?_erase_self]
      simp
    · rw [if_neg hs, get?_erase_of_ne _ hs, h.watched, count_pos_iff]
  · intro s k
    rw [hcount]
    split_ifs
    · exact Nat.zero_le 1
    · exact h.once s k

end Synced

section Others
variable {n : Node} {sess : Session} {id : String}

theorem count_subscribe_other (hid : sess.id ≠ id) (key k : String) (streamID s : ℕ) :
    ((n.fanout.subscribe key ⟨id, streamID⟩).subs k).count ⟨sess.id, s⟩ =
      (n.fanout.subs k).count ⟨sess.id, s⟩ := by
  rw [FanoutBus.subs_subscribe]
  split_ifs with hk
  · rw [count_append, hk]
    simp [Ne.symm hid]
  · rfl

theorem count_unsubscribe_other (hid : sess.id ≠ id) (key k : String) (streamID s : ℕ) :
    ((n.fanout.unsubscribe key id streamID).subs k).count ⟨sess.id, s⟩ =
      (n.fanout.subs k).count ⟨sess.id, s⟩ := by
  by_cases hk : k = key
  · rw [hk, FanoutBus.count_unsubscribe, if_neg, Nat.sub_zero]
    exact fun h => hid (congrArg Subscriber.sessionID h)
  · rw [FanoutBus.subs_unsubscribe_of_ne hk]

theorem count_removeSession_other (hid : sess.id ≠ id) (k : String) (s : ℕ) :
    ((n.fanout.removeSession id).subs k).count ⟨sess.id, s⟩ =
      (n.fanout.subs k).count ⟨sess.id, s⟩ := by
  refine count_filter ?_
  exact decide_eq_true hid

end Others

/-! ### The rule -/

variable {c : Conn}

theorem Synced.act {act : Act} (hact : act.Allowed c) (hok : FreshAct c act) (h : Synced c.1 c.2) :
    Synced (act.run c).1 (act.run c).2 := by
  cases act with
  | say msg => exact h.post msg
  | rate count reset | mark | login sub claims | alloc => exact h.congr rfl rfl fun _ _ => rfl
  | watch fresh =>
    cases fresh with
    | false => exact h.opened hok rfl rfl
    | true => exact h.opened hok rfl rfl
  | init streamID key params | replay streamID entry => exact h.post _
  | unwatch => exact h.closed hact
  | change m f callID range =>
    obtain ⟨_, hq⟩ := session_change c m f callID range
    have hid : (change c m f callID range).2.id = c.2.id := by rw [hq]
    have hwatches : (change c m f callID range).2.watches = c.2.watches := by rw [hq]
    refine h.congr hid hwatches fun key s => ?_
    change ((c.1.commit m c.2.id).fanout.subs key).count _ = _
    rw [Node.subs_commit]

theorem Synced.act_other {act : Act} {t : Session} (hid : t.id ≠ c.2.id) (h : Synced c.1 t) :
    Synced (act.run c).1 t := by
  cases act with
  | watch fresh streamID key =>
    refine h.congr rfl rfl fun k s => ?_
    cases fresh with
    | false | true => exact count_subscribe_other hid key k streamID s
  | unwatch streamID key =>
    exact h.congr rfl rfl fun k s => count_unsubscribe_other hid key k streamID s
  | change m =>
    refine h.congr rfl rfl fun key s => ?_
    change ((c.1.commit m c.2.id).fanout.subs key).count _ = _
    rw [Node.subs_commit]
  | _ => exact h

theorem synced_rule :
    Server.Rule (fun _ => True) (fun n sess => sess.done = false → Synced n sess) FreshAct
      (fun _ _ => True) where
  node := .true _ _
  new := by
    intro n known id hn _ hid _
    refine ⟨fun s k => ?_, fun s k => ?_⟩
    · constructor
      · intro h
        simp [Session.new] at h
      · intro h
        exact absurd (hn.bus.subs_known k _ h) hid
    · rw [count_eq_zero_of_not_mem fun h => hid (hn.bus.subs_known k _ h)]
      exact Nat.zero_le 1
  act := by
    intro c act known hsane hact hok h hdone
    exact (h ((act.session_run c).2 ▸ hdone)).act hact hok
  act_other := fun c act known t _ _ _ hid h hdone => (h hdone).act_other hid
  commit := by
    intro n m known t _ _ h hdone
    exact (h hdone).congr rfl rfl fun key s => by rw [Node.subs_commit]
  remove := fun n t id hid h hdone =>
    (h hdone).congr rfl rfl fun k s => count_removeSession_other hid k s
  close := fun n t _ hdone => by cases hdone
  take := by
    intro n known w bus t _ hbus h hdone
    obtain ⟨key, job, rest, -, rfl⟩ := FanoutBus.take_eq_some hbus
    exact (h hdone).congr rfl rfl fun _ _ => rfl
  snapshot := by
    intro n known w bus t _ hbus h hdone
    obtain ⟨key, jobs, job, -, rfl⟩ := FanoutBus.snapshot_eq_some hbus
    exact (h hdone).congr rfl rfl fun _ _ => rfl
  send := by
    intro n known w bus out t _ hbus h hdone
    have hsubs : bus.subs = n.fanout.subs := by
      obtain ⟨key, jobs, job, rest, -, ⟨-, rfl, -⟩ | ⟨-, -, -, rfl, -⟩⟩ :=
        FanoutBus.send_eq_some hbus <;> rfl
    obtain ⟨_, hq⟩ := received_eq out t
    rw [hq] at hdone ⊢
    exact (h hdone).congr rfl rfl fun key s => by rw [hsubs]
  idle := by
    intro n known w bus t _ hbus h hdone
    rcases FanoutBus.idle_eq_some hbus with ⟨key, -, rfl⟩ | ⟨key, job, rest, -, rfl⟩ <;>
      exact (h hdone).congr rfl rfl fun _ _ => rfl
  write := by
    intro n t u hwrite h hdone
    rw [Session.write] at hwrite
    split at hwrite
    · cases hwrite
    · rw [← some.inj hwrite] at hdone ⊢
      exact (h hdone).congr rfl rfl fun _ _ => rfl

/-! ### Frames -/

/-- A WATCH or RESUME frame uses ids that differ from each other and from those of live watches,
its own id and the ones that the server's counter gives it. -/
def Server.FreshStreams (srv : Server) : ServerEvent → Prop
  | .frame id ch f => ∀ sess ∈ srv.live? id, (f.mayOpen ch.conversions sess.nextStream).Nodup ∧
      ∀ streamID ∈ f.mayOpen ch.conversions sess.nextStream, sess.watches.get? streamID = none
  | _ => True

theorem watches_run {act : Act} {streamID : ℕ} (hopens : ∀ key, act.opens ≠ some (streamID, key))
    (h : c.2.watches.get? streamID = none) : (act.run c).2.watches.get? streamID = none := by
  have hpost : ∀ msg, (c.2.post msg).watches.get? streamID = none := by
    intro msg
    rw [Session.post_eq]
    exact h
  cases act with
  | say msg => exact hpost msg
  | watch fresh n key =>
    have hne : streamID ≠ n := by
      rintro rfl
      exact hopens key rfl
    cases fresh with
    | false => exact (get?_insert_of_ne _ hne _).trans h
    | true => exact (get?_insert_of_ne _ hne _).trans h
  | init n key params | replay n entry => exact hpost _
  | unwatch n =>
    change (c.2.watches.erase n).get? streamID = none
    rw [get?_erase]
    split_ifs
    · rfl
    · exact h
  | change m f callID range =>
    obtain ⟨_, hq⟩ := session_change c m f callID range
    change (change c m f callID range).2.watches.get? streamID = none
    rw [hq]
    exact h
  | _ => exact h

theorem along_freshAct {acts : List Act} (hnodup : ((acts.filterMap Act.opens).map Prod.fst).Nodup)
    (hfresh : ∀ streamID ∈ (acts.filterMap Act.opens).map Prod.fst,
      c.2.watches.get? streamID = none) :
    Along Act.step FreshAct c acts := by
  refine along_of_opens (Q := fun _ => True)
    (F := fun c streamID => c.2.watches.get? streamID = none) ?_ ?_ ?_ (fun _ _ => trivial)
    hnodup hfresh
  · intro c act streamID _ hopens h
    exact watches_run (fun key hkey => hopens _ hkey rfl) h
  · intro c act _ hnone
    cases act with
    | watch => cases hnone
    | _ => trivial
  · intro c act opened hopened h
    cases act with
    | watch =>
      cases hopened
      exact h
    | _ => trivial

theorem meets_of_freshStreams {srv : Server} {e : ServerEvent} (h : srv.FreshStreams e) :
    srv.Meets FreshAct (fun _ _ => True) e := by
  cases e with
  | frame id ch f =>
    intro sess hlive
    obtain ⟨hnodup, hfresh⟩ := h sess hlive
    obtain ⟨acts, hacts, hopens⟩ := dispatch_acts ch (srv.toNode, sess) f
    exact ⟨acts, hacts, along_freshAct (hnodup.sublist hopens.sublist)
      fun n hn => hfresh n (hopens.subset hn)⟩
  | _ => trivial

/-- Along every run whose frames open ids that are not live: an id stands for one key, and the watch
table of a connected session is the list of its subscriptions. -/
theorem streams_identify_keys {opts : Options} {events : List ServerEvent} {srv : Server}
    (hrun : run Server.step (Server.new opts) events = some srv)
    (hfresh : Along Server.step Server.FreshStreams (Server.new opts) events) {id : String}
    {sess : Session} (hlive : srv.live? id = some sess) :
    (∀ streamID key key', ⟨id, streamID⟩ ∈ srv.fanout.subs key →
      ⟨id, streamID⟩ ∈ srv.fanout.subs key' → key = key') ∧
    ∀ streamID key, sess.watches.get? streamID = some key ↔
      ⟨id, streamID⟩ ∈ srv.fanout.subs key := by
  obtain ⟨hget, hdone⟩ := live?_eq_some hlive
  obtain ⟨hsane, -, hholds⟩ := synced_rule.run
    (hfresh.imp fun _ _ h => meets_of_freshStreams h) hrun
  have hsynced := hholds id sess hget hdone
  obtain rfl := hsane.ids id sess hget
  refine ⟨?_, hsynced.watched⟩
  intro streamID key key' hkey hkey'
  rw [← hsynced.watched] at hkey hkey'
  exact some.inj (hkey.symm.trans hkey')

instance (srv : Server) (e : ServerEvent) : Decidable (srv.FreshStreams e) := by
  unfold Server.FreshStreams
  split <;> infer_instance

def watchFrame (streamID : ℕ) (keys : List String) : Frame :=
  ⟨.watch, streamID, 0, .ofFields [("states", .slice (keys.map GoValue.string))]⟩

def mixedStreams : List ServerEvent :=
  [.connect "s", .frame "s" .plain (watchFrame 20 ["a", "b"]),
    .frame "s" .plain ⟨.unwatch, 20, 0, .nil⟩, .frame "s" .plain (watchFrame 0 ["c"])]

theorem mixed_streams_identify_keys :
    ∃ srv sess, run Server.step (Server.new .plain) mixedStreams = some srv ∧
      srv.live? "s" = some sess ∧ ⟨"s", 11⟩ ∈ srv.fanout.subs "c" ∧
      sess.watches.get? 11 = some "c" := by
  obtain ⟨srv, hrun, sess, hlive, hmem⟩ : ∃ srv ∈ run Server.step (Server.new .plain) mixedStreams,
      ∃ sess ∈ srv.live? "s", ⟨"s", 11⟩ ∈ srv.fanout.subs "c" := by
    decide +kernel
  exact ⟨srv, sess, hrun, hlive, hmem,
    ((streams_identify_keys hrun (by decide +kernel) hlive).2 11 "c").mpr hmem⟩

/-- The first frame of a client that starts its ids where the server's counter starts. -/
theorem counter_repeats_client_id : (run Server.step (Server.new .plain)
      [.connect "s", .frame "s" .plain (watchFrame 10 ["a", "b"])]).bind (fun srv =>
        (srv.live? "s").map fun sess =>
          (srv.fanout.subs "a", srv.fanout.subs "b", sess.watches.get? 10)) =
      some ([⟨"s", 10⟩], [⟨"s", 10⟩], some "b") := by
  decide +kernel

end Sodp.GoServer
