import Sodp.DeltaHistory
import Sodp.HandlerEffects
import Sodp.Transition

/-!
# Replays against the bounded queue

A RESUME enqueues every delta the client missed and a STATE_INIT, without waiting for the writer,
which may stand still until the last of them is sent. One key replays at most 1000 deltas, so a
single RESUME fits into the default queue. Two keys need not.
-/

namespace Sodp
open StateStore SodpServer StampedLog DeltaLog Transition OrderedMap List Option

variable {msgs : List OutboundMsg}

namespace WriteHandle
variable (h : WriteHandle)

def sendAll (msgs : List OutboundMsg) : WriteHandle := msgs.foldl (fun h msg => (h.send msg).1) h

theorem sendAll_cons (msg : OutboundMsg) (msgs : List OutboundMsg) :
    h.sendAll (msg :: msgs) = (h.send msg).1.sendAll msgs := rfl

theorem sendAll_append (msgs more : List OutboundMsg) :
    h.sendAll (msgs ++ more) = (h.sendAll msgs).sendAll more := foldl_append

theorem sendAll_overflow {h : WriteHandle}
    (hover : h.cancelled = true ∨ h.capacity < h.queue.length + msgs.length)
    (hfits : h.queue.length ≤ h.capacity) : (h.sendAll msgs).cancelled = true := by
  induction msgs generalizing h with
  | nil =>
    rcases hover with hc | hlong
    · exact hc
    · rw [length_nil] at hlong
      omega
  | cons msg msgs ih =>
    rw [length_cons] at hover
    rw [sendAll_cons, send]
    split_ifs
    · refine ih (hover.imp id fun hlong => ?_) ?_
      · simp only [length_append, length_singleton]
        omega
      · simp only [length_append, length_singleton]
        omega
    · exact ih (.inl rfl) hfits

end WriteHandle

structure Replaying where
  handle : WriteHandle
  pending : List OutboundMsg

namespace Replaying

inductive Move where
  | enqueue
  | drain

def step (c : Replaying) : Move → Option Replaying
  | .enqueue =>
    match c.pending with
    | [] => none
    | msg :: rest => some ⟨(c.handle.send msg).1, rest⟩
  | .drain =>
    match c.handle.queue with
    | [] => none
    | _ :: queue => some { c with handle := { c.handle with queue := queue } }

structure Fits (c : Replaying) : Prop where
  isOpen : c.handle.cancelled = false
  room : c.handle.queue.length + c.pending.length ≤ c.handle.capacity

theorem Fits.step {c c' : Replaying} (hfits : Fits c) {move : Move}
    (h : Replaying.step c move = some c') : Fits c' := by
  obtain ⟨hopen, hroom⟩ := hfits
  cases move with
  | enqueue =>
    cases hpending : c.pending with
    | nil => simp [Replaying.step, hpending] at h
    | cons =>
      rw [hpending, length_cons] at hroom
      simp only [Replaying.step, hpending, some.injEq] at h
      rw [WriteHandle.send, if_pos (by omega)] at h
      subst h
      refine ⟨hopen, ?_⟩
      simp only [length_append, length_singleton]
      omega
  | drain =>
    cases hqueue : c.handle.queue with
    | nil => simp [Replaying.step, hqueue] at h
    | cons msg queue =>
      rw [hqueue, length_cons] at hroom
      simp only [Replaying.step, hqueue] at h
      cases h
      refine ⟨hopen, ?_⟩
      change queue.length + c.pending.length ≤ c.handle.capacity
      omega

theorem run_enqueue (h : WriteHandle) (msgs : List OutboundMsg) :
    run step ⟨h, msgs⟩ (List.replicate msgs.length .enqueue) = some ⟨h.sendAll msgs, []⟩ := by
  induction msgs generalizing h with
  | nil => rfl
  | cons msg msgs ih =>
    rw [length_cons, replicate_succ, run_cons_eq_some]
    exact ⟨_, rfl, ih _⟩

theorem overflows {capacity : ℕ} (hlong : capacity < msgs.length) :
    ∃ moves c, run step ⟨⟨[], capacity, false⟩, msgs⟩ moves = some c ∧
      c.handle.cancelled = true := by
  refine ⟨_, _, run_enqueue _ msgs, WriteHandle.sendAll_overflow (.inr ?_) (Nat.zero_le _)⟩
  simpa using hlong

theorem fits_iff (capacity : ℕ) (msgs : List OutboundMsg) :
    (∀ moves c, run step ⟨⟨[], capacity, false⟩, msgs⟩ moves = some c →
      c.handle.cancelled = false) ↔ msgs.length ≤ capacity := by
  constructor
  · intro h
    by_contra hlong
    obtain ⟨moves, c, hrun, hcancelled⟩ := overflows (Nat.lt_of_not_le hlong)
    rw [h moves c hrun] at hcancelled
    cases hcancelled
  · intro hle moves c hrun
    have hstart : Fits ⟨⟨[], capacity, false⟩, msgs⟩ := ⟨rfl, by simpa using hle⟩
    exact (invariant (I := Fits) (fun _ _ _ hI ht => hI.step ht) hstart hrun).isOpen

end Replaying

namespace SodpServer
variable (srv : SodpServer) (session : Session)

def resumeMessages (frame : Frame) (now : ℕ) : List OutboundMsg :=
  let seq := session.seqCounter + 1
  if ¬ (session.allowWatch now).2 then [.error frame.streamId seq 429 "rate limit exceeded"]
  else match (frame.body.get? "state").bind Value.asStr with
    | none => [.error frame.streamId seq 400 "RESUME: missing 'state' key"]
    | some stateKey =>
      if ¬ srv.canRead session stateKey then [.error frame.streamId seq 403 "forbidden"]
      else
        let missed := srv.missedBy stateKey
          (((frame.body.get? "since_version").bind Value.asU64).getD 0)
        let entry := srv.readEntry stateKey
        (missed.zipIdx seq).map (fun d => .delta session.nextStreamId d.2 d.1.1 d.1.2) ++
          [.stateInit session.nextStreamId (seq + missed.length) stateKey entry.1 entry.2.1
            entry.2.2 (frame.body.get? "params")]

def resumeCost (frame : Frame) (now : ℕ) : ℕ :=
  if ¬ (session.allowWatch now).2 then 1
  else match (frame.body.get? "state").bind Value.asStr with
    | none => 1
    | some stateKey =>
      if ¬ srv.canRead session stateKey then 1
      else (srv.missedBy stateKey
        (((frame.body.get? "since_version").bind Value.asU64).getD 0)).length + 1

def repliesTo : SodpServer × Session → List (Frame × ℕ) → List OutboundMsg
  | _, [] => []
  | acc, f :: frames =>
    acc.1.resumeMessages acc.2 f.1 f.2 ++ repliesTo (acc.1.handleResume acc.2 f.1 f.2) frames

def replayCost : Session → List (Frame × ℕ) → ℕ
  | _, [] => 0
  | session, f :: frames =>
    srv.resumeCost session f.1 f.2 + replayCost (session.allowWatch f.2).1 frames

theorem length_resumeMessages (frame : Frame) (now : ℕ) :
    (srv.resumeMessages session frame now).length = srv.resumeCost session frame now := by
  rw [resumeMessages, resumeCost]
  split_ifs
  · cases (frame.body.get? "state").bind Value.asStr with
    | none => rfl
    | some =>
      dsimp only
      split_ifs
      · simp
      · rfl
  · rfl

theorem handles_reply (msg : ℕ → OutboundMsg) : (srv.reply session msg).1.handles session.id =
      (srv.handles session.id).sendAll [msg (session.seqCounter + 1)] :=
  Handles.send_self ..

theorem handles_replayAll (streamId : ℕ) (acc : SodpServer × Session)
    (ds : List (ℕ × List DeltaOp)) :
    (replayAll streamId acc ds).1.handles acc.2.id = (acc.1.handles acc.2.id).sendAll
      ((ds.zipIdx (acc.2.seqCounter + 1)).map fun d => .delta streamId d.2 d.1.1 d.1.2) ∧
    (replayAll streamId acc ds).2.id = acc.2.id ∧
    (replayAll streamId acc ds).2.seqCounter = acc.2.seqCounter + ds.length ∧
    (replayAll streamId acc ds).2.watchLimiter = acc.2.watchLimiter := by
  induction ds generalizing acc with
  | nil => exact ⟨rfl, rfl, rfl, rfl⟩
  | cons d ds ih =>
    obtain ⟨hhandles, hid, hseq, hlimiter⟩ :=
      ih (acc.1.reply acc.2 fun seq => .delta streamId seq d.1 d.2)
    rw [zipIdx_cons, map_cons, WriteHandle.sendAll_cons]
    refine ⟨hhandles.trans ?_, hid, hseq.trans ?_, hlimiter⟩
    · exact congrArg (fun h : WriteHandle => h.sendAll _) (handles_reply acc.1 acc.2 _)
    · rw [length_cons]
      exact Nat.add_right_comm _ _ _

theorem handles_resumeKey (stateKey : String) (sinceVersion : ℕ) (params : Option Value) :
    (srv.resumeKey session stateKey sinceVersion params).1.handles session.id =
      (srv.handles session.id).sendAll
        (((srv.missedBy stateKey sinceVersion).zipIdx (session.seqCounter + 1)).map
            (fun d => .delta session.nextStreamId d.2 d.1.1 d.1.2) ++
          [.stateInit session.nextStreamId
            (session.seqCounter + 1 + (srv.missedBy stateKey sinceVersion).length) stateKey
            (srv.readEntry stateKey).1 (srv.readEntry stateKey).2.1 (srv.readEntry stateKey).2.2
            params]) ∧
    (srv.resumeKey session stateKey sinceVersion params).2.watchLimiter = session.watchLimiter := by
  obtain ⟨hhandles, hid, hseq, hlimiter⟩ := handles_replayAll session.nextStreamId
    (srv.openStream session stateKey params) (srv.missedBy stateKey sinceVersion)
  rw [resumeKey_eq]
  generalize replayAll session.nextStreamId (srv.openStream session stateKey params)
    (srv.missedBy stateKey sinceVersion) = replayed at hhandles hid hseq hlimiter ⊢
  refine ⟨?_, hlimiter⟩
  have hsent := handles_reply replayed.1 replayed.2 fun seq =>
    .stateInit session.nextStreamId seq stateKey (srv.readEntry stateKey).1
      (srv.readEntry stateKey).2.1 (srv.readEntry stateKey).2.2 params
  rw [hid, hhandles, hseq, ← WriteHandle.sendAll_append] at hsent
  refine hsent.trans ?_
  rw [Nat.add_right_comm]
  rfl

theorem handles_handleResume (frame : Frame) (now : ℕ) :
    (srv.handleResume session frame now).1.handles session.id =
      (srv.handles session.id).sendAll (srv.resumeMessages session frame now) ∧
    (srv.handleResume session frame now).2.watchLimiter =
      (session.allowWatch now).1.watchLimiter := by
  have hid := (session.sameStanding_allowWatch now).id
  have hseq : (session.allowWatch now).1.seqCounter = session.seqCounter := by
    rw [Session.allowWatch]
    cases session.watchLimiter <;> rfl
  have hstream := (session.sameStanding_allowWatch now).nextStreamId
  have hread : ∀ k, srv.canRead (session.allowWatch now).1 k = srv.canRead session k := by
    intro k
    rw [canRead, canRead, (session.sameStanding_allowWatch now).sub,
      (session.sameStanding_allowWatch now).claims]
  have hrefused : ∀ code message, (srv.reply (session.allowWatch now).1 fun seq =>
        .error frame.streamId seq code message).1.handles session.id =
      (srv.handles session.id).sendAll
        [.error frame.streamId (session.seqCounter + 1) code message] := by
    intro code message
    have hsent := handles_reply srv (session.allowWatch now).1 fun seq =>
      .error frame.streamId seq code message
    rwa [hid, hseq] at hsent
  rw [handleResume, resumeMessages]
  dsimp only
  split_ifs
  · cases (frame.body.get? "state").bind Value.asStr with
    | none => exact ⟨hrefused _ _, rfl⟩
    | some stateKey =>
      dsimp only
      rw [hread]
      split_ifs
      · have hserved := handles_resumeKey srv (session.allowWatch now).1 stateKey
          (((frame.body.get? "since_version").bind Value.asU64).getD 0) (frame.body.get? "params")
        rwa [hid, hseq, hstream] at hserved
      · exact ⟨hrefused _ _, rfl⟩
  · exact ⟨hrefused _ _, rfl⟩

section Cost
variable {acc acc' : SodpServer × Session}

theorem allowWatch_congr {a b : Session} (h : b.watchLimiter = a.watchLimiter) (now : ℕ) :
    (b.allowWatch now).2 = (a.allowWatch now).2 ∧
    (b.allowWatch now).1.watchLimiter = (a.allowWatch now).1.watchLimiter := by
  rw [Session.allowWatch, Session.allowWatch, h]
  cases a.watchLimiter with
  | none => exact ⟨rfl, h⟩
  | some => exact ⟨rfl, rfl⟩

theorem replayCost_congr (hfixed : Fixed acc acc') (hstate : acc'.1.state = acc.1.state)
    (hlimiter : acc'.2.watchLimiter = acc.2.watchLimiter) (frames : List (Frame × ℕ)) :
    acc'.1.replayCost acc'.2 frames = acc.1.replayCost acc.2 frames := by
  induction frames generalizing acc acc' with
  | nil => rfl
  | cons f frames ih =>
    obtain ⟨hallowed, hafter⟩ := allowWatch_congr hlimiter f.2
    have hcost : acc'.1.resumeCost acc'.2 f.1 f.2 = acc.1.resumeCost acc.2 f.1 f.2 := by
      simp only [resumeCost, hallowed, hfixed.canRead, missedBy, hstate]
    have hstanding := acc.2.sameStanding_allowWatch f.2
    have hstanding' := acc'.2.sameStanding_allowWatch f.2
    have hnext : Fixed (acc.1, (acc.2.allowWatch f.2).1) (acc'.1, (acc'.2.allowWatch f.2).1) :=
      ⟨hfixed.acl, hfixed.schema, by rw [hstanding.id, hstanding'.id, hfixed.id],
        by rw [hstanding.sub, hstanding'.sub, hfixed.sub],
        by rw [hstanding.claims, hstanding'.claims, hfixed.claims]⟩
    rw [replayCost, replayCost, hcost, ih hnext hstate hafter]

theorem length_repliesTo (acc : SodpServer × Session) (frames : List (Frame × ℕ)) :
    (repliesTo acc frames).length = acc.1.replayCost acc.2 frames := by
  induction frames generalizing acc with
  | nil => rfl
  | cons f frames ih =>
    have heffects : Effects [] acc [] (acc.1.handleResume acc.2 f.1 f.2) := .handleResume ..
    have hstanding := acc.2.sameStanding_allowWatch f.2
    have hfixed : Fixed (acc.1, (acc.2.allowWatch f.2).1) (acc.1.handleResume acc.2 f.1 f.2) :=
      ⟨heffects.fixed.acl, heffects.fixed.schema, heffects.fixed.id.trans hstanding.id.symm,
        heffects.fixed.sub.trans hstanding.sub.symm,
        heffects.fixed.claims.trans hstanding.claims.symm⟩
    rw [repliesTo, length_append, length_resumeMessages, ih, replayCost,
      replayCost_congr hfixed heffects.state (handles_handleResume acc.1 acc.2 f.1 f.2).2]

end Cost

/-- The reply to one RESUME is bounded by the log of its key. -/
theorem resumeCost_le {srv : SodpServer}
    (hheld : ∀ k, (srv.state.log.held k).length ≤ maxDeltaLogEntriesPerKey) (session : Session)
    (frame : Frame) (now : ℕ) :
    srv.resumeCost session frame now ≤ maxDeltaLogEntriesPerKey + 1 := by
  have hmissed : ∀ k v, (srv.missedBy k v).length ≤ maxDeltaLogEntriesPerKey := by
    intro k v
    rw [missedBy, StateStore.deltasSince, since_eq_filter]
    split_ifs
    · exact (length_filter_le _ _).trans (hheld k)
    · exact Nat.zero_le _
  rw [resumeCost]
  repeat' split
  all_goals first
    | exact Nat.succ_le_succ (hmissed _ _)
    | exact Nat.succ_le_succ (Nat.zero_le _)

/-- Resuming cancels the session under some schedule of the writer unless all replies
fit into the queue at once. -/
theorem resume_fits_iff (srv : SodpServer) (session : Session) (frames : List (Frame × ℕ)) :
    (∀ moves c, run Replaying.step
        ⟨⟨[], defaultBackpressureLimit, false⟩, repliesTo (srv, session) frames⟩ moves = some c →
      c.handle.cancelled = false) ↔ srv.replayCost session frames ≤ defaultBackpressureLimit := by
  rw [Replaying.fits_iff, length_repliesTo]

end SodpServer

variable {s : StateStore}

namespace StateStore

def counting (key : String) (n : ℕ) : List Call :=
  (List.range n).map fun i : ℕ => .apply key (.number (.int i))

theorem execAll_append (s : StateStore) (before after : List Call) :
    s.execAll (before ++ after) = (s.execAll before).execAll after := foldl_append

theorem length_held_exec (c : Call) (h : ∀ k, (s.log.held k).length ≤ maxDeltaLogEntriesPerKey)
    (k : String) : ((s.exec c).1.log.held k).length ≤ maxDeltaLogEntriesPerKey := by
  cases hrec : s.recordOf c with
  | none =>
    rw [(exec_of_none hrec).1]
    exact h k
  | some =>
    rw [held_exec_of_record hrec]
    split_ifs
    · rw [length_rtake]
      exact Nat.min_le_left _ _
    · exact h k

theorem length_held_execAll (h : ∀ k, (s.log.held k).length ≤ maxDeltaLogEntriesPerKey)
    (calls : List Call) (k : String) :
    ((s.execAll calls).log.held k).length ≤ maxDeltaLogEntriesPerKey := by
  induction calls generalizing s with
  | nil => exact h k
  | cons c calls ih => exact ih (length_held_exec c h)

theorem held_counting {key : String} (hget : s.get key = none) (hheld : s.log.held key = []) {n : ℕ}
    (hn : n ≤ maxDeltaLogEntriesPerKey) : ((s.execAll (counting key n)).log.held key).map Prod.fst =
      List.range' (s.globalVersion + 1) n ∧
    (s.execAll (counting key n)).globalVersion = s.globalVersion + n ∧
    (∀ e, (s.execAll (counting key n)).get key = some e → ∃ i < n, e.value = .number (.int i)) ∧
    ∀ k, k ≠ key → (s.execAll (counting key n)).log.held k = s.log.held k ∧
      (s.execAll (counting key n)).get k = s.get k := by
  induction n with
  | zero => exact ⟨by simp [counting, execAll, hheld], rfl, by simp [counting, execAll, hget],
      fun k _ => ⟨rfl, rfl⟩⟩
  | succ n ih =>
    obtain ⟨hversions, hglobal, hvalue, hother⟩ := ih (Nat.le_of_succ_le hn)
    have hsplit : s.execAll (counting key (n + 1)) =
        ((s.execAll (counting key n)).exec (.apply key (.number (.int n)))).1 := by
      rw [counting, range_succ, map_append, execAll_append]
      rfl
    have hlength := congrArg List.length hversions
    rw [length_map, length_range'] at hlength
    rw [hsplit]
    generalize s.execAll (counting key n) = t at hversions hglobal hvalue hother hlength
    have hops : t.opsFor key (.number (.int n)) ≠ [] := by
      intro hnil
      obtain ⟨e, he, hval⟩ := opsFor_eq_nil_iff.mp hnil
      obtain ⟨i, _, hvi⟩ := hvalue e he
      rw [hval, Value.number.injEq, Number.int.injEq] at hvi
      omega
    have hrec : t.recordOf (.apply key (.number (.int n))) = some _ := if_neg hops
    refine ⟨?_, ?_, fun e he => ⟨n, Nat.lt_succ_self n, ?_⟩, fun k hk => ⟨?_, ?_⟩⟩
    · rw [held_exec_of_record hrec, if_pos rfl, rtake_of_length_le, map_append, hversions,
        range'_concat, hglobal]
      · simp [Nat.add_right_comm]
      · simp only [length_append, length_singleton]
        omega
    · rw [globalVersion_exec_of_record hrec, hglobal]
      rfl
    · rw [get_exec, get_touch, Call.key, if_pos rfl] at he
      obtain ⟨v, hv, rfl⟩ := map_eq_some_iff.mp he
      exact (some.inj hv).symm
    · rw [held_exec_of_record hrec, if_neg (Ne.symm hk)]
      exact (hother k hk).1
    · rw [get_exec, get_touch, Call.key, if_neg hk]
      exact (hother k hk).2

theorem length_deltasSince (s : StateStore) (key : String) (sinceVersion : ℕ) :
    (s.deltasSince key sinceVersion).length =
      (((s.log.held key).map Prod.fst).filter fun v => sinceVersion < v).length := by
  rw [deltasSince, since_eq_filter, List.filter_map, List.length_map]
  rfl

def busy : StateStore := new.execAll (counting "a" 600 ++ counting "b" 600)

theorem deltasSince_busy :
    (busy.deltasSince "a" 1).length = 599 ∧ (busy.deltasSince "b" 601).length = 599 := by
  have hnone : ∀ k, new.get k = none := get?_empty
  obtain ⟨ha, hglobal, -, hother⟩ := held_counting (n := 600) (hnone "a") rfl (by decide)
  obtain ⟨hheld, hget⟩ := hother "b" (by decide)
  obtain ⟨hb, -, -, hother⟩ := held_counting (n := 600) (hget.trans (hnone "b")) hheld (by decide)
  rw [hglobal] at hb
  rw [length_deltasSince, length_deltasSince, busy, execAll_append, (hother "a" (by decide)).1,
    ha, hb]
  decide +kernel

end StateStore

namespace SodpServer

/-- A single RESUME fits into an empty queue of the default size, whatever was called before. -/
theorem single_resume_fits (srv : SodpServer) (calls : List Call) (session : Session)
    (frame : Frame) (now : ℕ) : (({ srv with
      state := StateStore.new.execAll calls
      handles := Function.update srv.handles session.id ⟨[], defaultBackpressureLimit, false⟩
        }.handleResume session frame now).1.handles session.id).cancelled = false := by
  rw [(handles_handleResume ..).1]
  dsimp only
  rw [Function.update_self]
  refine (Replaying.fits_iff ..).mpr ?_ _ _ (Replaying.run_enqueue ..)
  rw [length_resumeMessages]
  have hheld := length_held_execAll (s := .new) (fun _ => Nat.zero_le _) calls
  exact (resumeCost_le hheld session frame now).trans (by decide)

def resumeFrame (key : String) (sinceVersion : ℕ) : Frame :=
  ⟨.resume, 0, 0,
    .ofFields [("state", .string key), ("since_version", .number (.int sinceVersion))]⟩

theorem resumeCost_resumeFrame (srv : SodpServer) (session : Session) (hacl : srv.acl = none)
    (hlimiter : session.watchLimiter = none) {v : ℕ} (hv : 0 < v) (hlt : v < 2 ^ 64)
    (key : String) (now : ℕ) :
    srv.resumeCost session (resumeFrame key v) now = (srv.state.deltasSince key v).length + 1 := by
  have hsince : (resumeFrame key v).body.get? "since_version" = some (.number (.int v)) := by
    simp [resumeFrame, Value.ofFields]
  have hversion : (Value.number (.int v)).asU64 = some v := if_pos hlt
  have hkey : ((resumeFrame key v).body.get? "state").bind Value.asStr = some key := by
    simp [resumeFrame, Value.ofFields, get?_insert, Value.asStr]
  simp [resumeCost, hkey, hsince, hversion, canRead, hacl, missedBy,
    Session.allowWatch, hlimiter, hv]

def resumeFrames (seen : List (String × ℕ)) : List (Frame × ℕ) :=
  seen.map fun kv => (resumeFrame kv.1 kv.2, 0)

variable {seen : List (String × ℕ)}

theorem replayCost_resumeFrames {srv : SodpServer} {session : Session} (hacl : srv.acl = none)
    (hlimiter : session.watchLimiter = none)
    (hseen : ∀ kv ∈ seen, 0 < kv.2 ∧ kv.2 < 2 ^ 64) : srv.replayCost session (resumeFrames seen) =
      (seen.map fun kv => (srv.state.deltasSince kv.1 kv.2).length + 1).sum := by
  have hsame : (session.allowWatch 0).1 = session := by rw [Session.allowWatch, hlimiter]
  induction seen with
  | nil => rfl
  | cons kv seen ih =>
    rw [forall_mem_cons] at hseen
    rw [map_cons, sum_cons, ← ih hseen.2, ← resumeCost_resumeFrame srv session hacl
      hlimiter hseen.1.1 hseen.1.2 kv.1 0, resumeFrames, map_cons, replayCost, hsame]
    rfl

def serving (s : StateStore) : SodpServer := { SodpServer.new with state := s }

theorem overflow_of_missed
    (hseen : ∀ kv ∈ seen, 0 < kv.2 ∧ kv.2 < 2 ^ 64) (hlong : defaultBackpressureLimit <
      (seen.map fun kv => (s.deltasSince kv.1 kv.2).length + 1).sum) : ∃ moves c, run Replaying.step
        ⟨⟨[], defaultBackpressureLimit, false⟩,
          repliesTo (serving s, .new "s" 0 none none) (resumeFrames seen)⟩ moves = some c ∧
      c.handle.cancelled = true := by
  apply Replaying.overflows
  rw [length_repliesTo, replayCost_resumeFrames rfl rfl hseen]
  exact hlong

/-- A client that missed 599 writes of each of two keys is cancelled by its own replay. -/
theorem two_resumes_overflow : ∃ moves c, run Replaying.step ⟨⟨[], defaultBackpressureLimit, false⟩,
          repliesTo (serving busy, .new "s" 0 none none) (resumeFrames [("a", 1), ("b", 601)])⟩
        moves = some c ∧ c.handle.cancelled = true := by
  have hseen : ∀ kv ∈ [("a", 1), ("b", 601)], 0 < kv.2 ∧ kv.2 < 2 ^ 64 := by simp
  refine overflow_of_missed hseen ?_
  simp only [map_cons, map_nil, sum_cons, sum_nil, deltasSince_busy]
  decide

end SodpServer

end Sodp
