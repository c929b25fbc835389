import Sodp.GoServerSteps
import Sodp.GoStoreVersions

/-!
# A RESUME beside running changes

`handleResume` reads the log, then subscribes, then enqueues what it has read. A delta that comes
into the log after it was read, and is delivered before the session is subscribed, never reaches
the session; and one that is delivered between the subscription and the replay comes before older
ones.
-/

namespace Sodp.GoServer
open Transition List Option

/-! ### Numbers in turn -/

/-- Every number past `v` in the list comes after all smaller ones past `v` that were issued. -/
def InTurn (v : ℕ) (issued list : List ℕ) : Prop :=
  ∀ pre n post, list = pre ++ n :: post → v < n → ∀ m ∈ issued, v < m → m < n → m ∈ pre

namespace InTurn
variable {v : ℕ} {issued list : List ℕ}

theorem nil : InTurn v issued [] := by
  intro pre n post h
  simp at h

section
variable (h : InTurn v issued list)
include h

theorem snoc {n : ℕ}
    (hn : v < n → ∀ m ∈ issued, v < m → m < n → m ∈ list) : InTurn v issued (list ++ [n]) := by
  intro pre k post heq hk
  rcases eq_nil_or_concat post with rfl | ⟨front, _, rfl⟩
  · obtain ⟨rfl, hlast⟩ := append_inj' heq rfl
    obtain rfl : n = k := by simpa using hlast
    exact hn hk
  · rw [concat_eq_append, ← cons_append, ← append_assoc] at heq
    exact h pre k front (append_inj' heq rfl).1 hk

theorem append (hsorted : issued.Pairwise (· < ·)) {replay : List ℕ}
    (hreplay : replay <+: issued.filter (v < ·)) : InTurn v issued (list ++ replay) := by
  induction replay using List.reverseRecOn with
  | nil => rwa [append_nil]
  | append_singleton front n ih =>
    rw [← append_assoc]
    refine (ih ((prefix_append _ _).trans hreplay)).snoc fun _ m hm hvm hmn => ?_
    obtain ⟨rest, hrest⟩ := hreplay
    have hmem : m ∈ front ++ [n] ++ rest := by
      rw [hrest]
      exact mem_filter.mpr ⟨hm, decide_eq_true hvm⟩
    have hpair : (front ++ [n] ++ rest).Pairwise (· < ·) := hrest ▸ hsorted.filter _
    rw [append_assoc] at hmem hpair
    rcases mem_append.mp hmem with hfront | hmem
    · exact mem_append_right _ hfront
    rcases mem_cons.mp hmem with rfl | hmem
    · exact absurd hmn (lt_irrefl m)
    · have := (pairwise_cons.mp (pairwise_append.mp hpair).2.1).1 m hmem
      omega

theorem issue {more : List ℕ} (hlist : ∀ n ∈ list, n ∈ issued)
    (hsorted : (issued ++ more).Pairwise (· < ·)) : InTurn v (issued ++ more) list := by
  intro pre n post heq hn m hm hvm hmn
  rcases mem_append.mp hm with hm | hm
  · exact h pre n post heq hn m hm hvm hmn
  · have hissued : n ∈ issued := hlist n (by rw [heq]; simp)
    have := (pairwise_append.mp hsorted).2.2 n hissued m hm
    omega

theorem idxOf_lt {m n : ℕ} (hm : m ∈ issued) (hn : n ∈ list)
    (hvm : v < m) (hmn : m < n) : list.idxOf m < list.idxOf n := by
  obtain ⟨pre, post, heq, hnot⟩ := eq_append_cons_of_mem hn
  have hpre := h pre n post heq (hvm.trans hmn) m hm hvm hmn
  rw [heq, idxOf_append_of_mem hpre, idxOf_append_of_notMem hnot, idxOf_cons_self]
  exact (idxOf_lt_length_of_mem hpre).trans_le (Nat.le_add_right _ _)

end

end InTurn

/-! ### The system -/

inductive ResumeStage where
  | before
  | read (deltas : List DeltaEntry)
  | subscribed (deltas : List DeltaEntry)
  | done

def ResumeStage.replay : ResumeStage → List DeltaEntry
  | .read deltas | .subscribed deltas => deltas
  | _ => []

def ResumeStage.listening : ResumeStage → Bool
  | .subscribed _ | .done => true
  | _ => false

inductive ResumeEvent where
  | mutate (m : Mutation)
  | deliver (i : ℕ)
  | read
  | subscribe
  | enqueue

structure Resuming where
  ledger : Ledger
  flying : List DeltaEntry
  stage : ResumeStage
  queue : List DeltaEntry

namespace Resuming

def start : Resuming := ⟨.start, [], .before, []⟩

def enqueued (c : Resuming) : List ℕ := c.queue.map DeltaEntry.version

def step (key : String) (v : ℕ) (c : Resuming) : ResumeEvent → Option Resuming
  | .mutate m => some { c with
      ledger := c.ledger.next (.mutate m)
      flying := c.flying ++ (m.run c.ledger.store).2.toList.filter fun d => d.key = key }
  | .deliver i =>
    match c.flying[i]? with
    | none => none
    | some d => some { c with
        flying := c.flying.eraseIdx i
        queue := if c.stage.listening then c.queue ++ [d] else c.queue }
  | .read =>
    match c.stage with
    | .before => (c.ledger.store.deltasSince key v).map fun deltas =>
      { c with stage := .read deltas }
    | _ => none
  | .subscribe =>
    match c.stage with
    | .read deltas => some { c with stage := .subscribed deltas }
    | _ => none
  | .enqueue =>
    match c.stage with
    | .subscribed deltas => some { c with stage := .done, queue := c.queue ++ deltas }
    | _ => none

def finished (c : Resuming) : Bool :=
  match c.stage with
  | .done => c.flying.isEmpty
  | _ => false

structure Complete (key : String) (v : ℕ) (c : Resuming) : Prop where
  all : ∀ n ∈ c.ledger.pushed key, v < n → n ∈ c.enqueued
  ordered : ∀ m ∈ c.ledger.pushed key, ∀ n ∈ c.ledger.pushed key, v < m → m < n →
    c.enqueued.idxOf m < c.enqueued.idxOf n

def NoWrap (c : Resuming) : ResumeEvent → Prop
  | .mutate _ => c.ledger.store.global + 1 < 2 ^ 64
  | _ => True

/-- Between the reading of the log and the subscription only deltas are delivered that have been
read, and after it only ones of which the session has all older ones. -/
def Timely (key : String) (v : ℕ) (c : Resuming) : ResumeEvent → Prop
  | .deliver i => ∀ d ∈ c.flying[i]?, v < d.version →
      match c.stage with
      | .before => True
      | .read deltas => d.version ∈ deltas.map DeltaEntry.version
      | _ => ∀ n ∈ c.ledger.pushed key, v < n → n < d.version → n ∈ c.enqueued
  | _ => True

/-! ### The log -/

variable {deltas : List DeltaEntry}

theorem versions_deltasSince {l : Ledger} {key : String} {v : ℕ}
    (hl : l.Sound key) (h : l.store.deltasSince key v = some deltas) :
    deltas.map DeltaEntry.version = (l.pushed key).filter (v < ·) := by
  obtain ⟨front, hfront⟩ := hl.ring
  rw [StateStore.deltasSince] at h
  rw [StateStore.ring] at hfront
  cases hring : l.store.deltas.get? key with
  | none => simp [hring] at h
  | some ring =>
    simp only [hring] at h
    rw [hring, getD_some] at hfront
    split_ifs at h with hlen hold
    rw [some.injEq] at h
    have hsorted := hl.sorted
    rw [← hfront] at hsorted ⊢
    -- what the ring has lost is older than its oldest entry
    have hlost : front.filter (v < ·) = [] := by
      refine filter_eq_nil_iff.mpr fun n hn => ?_
      have hmod := Nat.mod_le (v + 1) (2 ^ 64)
      rw [RingLog.oldestVersion_eq] at hold
      cases hentries : ring.entries with
      | nil =>
        rw [← RingLog.length_entries, hentries] at hlen
        exact absurd rfl hlen
      | cons e =>
        rw [hentries] at hold hsorted
        have := (pairwise_append.mp hsorted).2.2 n hn e.version mem_cons_self
        simp only [head?_cons, map_some, getD_some] at hold
        rw [decide_eq_true_eq]
        omega
    rw [List.filter_append, hlost, List.nil_append, ← h, List.filter_map]
    rfl

theorem pushed_mutate (l : Ledger) (m : Mutation) (key : String) :
    (l.next (.mutate m)).pushed key = l.pushed key ++
      ((m.run l.store).2.toList.filter fun d => d.key = key).map DeltaEntry.version := by
  rw [Ledger.next]
  rcases hrun : m.run l.store with ⟨-, _ | d⟩
  · simp
  · by_cases hkey : d.key = key
    · subst hkey
      simp [Ledger.pushes]
    · have hne : key ≠ d.key := fun h => hkey h.symm
      simp [Ledger.pushes, hkey, Function.update_of_ne hne]

/-! ### The handler -/

theorem queue_replay {sess : Session} {streamID : ℕ}
    (hroom : sess.queue.length + deltas.length ≤ sess.backpressure) :
    (deltas.foldl (fun s d => s.post (.delta streamID d)) sess).queue =
      sess.queue ++ deltas.map (.delta streamID) := by
  induction deltas generalizing sess with
  | nil => exact (append_nil _).symm
  | cons d deltas ih =>
    rw [length_cons] at hroom
    rw [foldl_cons, Session.post, if_pos (by omega), ih (by simp; omega)]
    exact append_assoc _ _ _

/-- With nothing between them, the three steps are `handleResume`. -/
theorem handleResume_eq_run {ch : Choices} {n : Node} {sess : Session} {f : Frame}
    (body : WatchBody) {c d : Resuming} (hbody : decodeWatchBody ch.conversions f.body = some body)
    (hvalid : isValidKey body.key = true)
    (hallow : authorizeKey n.opts sess f.streamID body.key .read = (sess, true))
    (hlimit : sess.watches.keys.length < sess.maxWatches) (hstore : c.ledger.store = n.state)
    (hrun : run (step body.key body.sinceVersion) c [.read, .subscribe, .enqueue] = some d)
    (hroom : sess.queue.length + d.queue.length ≤ sess.backpressure) :
    ∃ streamID deltas, d.queue = c.queue ++ deltas ∧
      (handleResume ch (n, sess) f).2.queue = sess.queue ++ deltas.map (.delta streamID) ∧
      (handleResume ch (n, sess) f).1.fanout.subs body.key =
        n.fanout.subs body.key ++ [⟨sess.id, streamID⟩] := by
  obtain ⟨_, hread, hrun⟩ := run_cons_eq_some.mp hrun
  obtain ⟨_, hsubscribe, hrun⟩ := run_cons_eq_some.mp hrun
  obtain ⟨_, henqueue, hrun⟩ := run_cons_eq_some.mp hrun
  cases hrun
  rw [step] at hread
  split at hread
  swap
  · cases hread
  obtain ⟨deltas, hsince, rfl⟩ := map_eq_some_iff.mp hread
  cases hsubscribe
  cases henqueue
  rw [hstore] at hsince
  obtain ⟨fresh, streamID, hpick, -, -⟩ := resume_stream sess f 0
  generalize hchosen : (if fresh then sess.allocStream.1 else sess) = picked at hpick
  have hsame : picked.queue = sess.queue ∧ picked.id = sess.id ∧
      picked.backpressure = sess.backpressure ∧ picked.watches = sess.watches ∧
      picked.maxWatches = sess.maxWatches := by
    subst hchosen
    cases fresh <;> exact ⟨rfl, rfl, rfl, rfl, rfl⟩
  obtain ⟨hqueue, hid, hcap, hwatches, hmax⟩ := hsame
  obtain ⟨_, hadd⟩ : ∃ s, picked.addWatch streamID body.key = some s := by
    rw [Session.addWatch, hwatches, hmax, if_neg (not_le.mpr hlimit)]
    exact ⟨_, rfl⟩
  refine ⟨streamID, deltas, rfl, ?_⟩
  rw [handleResume, hbody]
  dsimp only
  rw [if_neg (not_not_intro hvalid), hallow, if_neg (not_not_intro rfl), hsince, hpick]
  dsimp only
  rw [hadd]
  constructor
  · rw [queue_replay]
    · change picked.queue ++ _ = _
      rw [hqueue]
    · change picked.queue.length + _ ≤ picked.backpressure
      rw [hqueue, hcap]
      rw [length_append] at hroom
      omega
  · change (n.fanout.subscribe body.key ⟨_, streamID⟩).subs body.key = _
    rw [hid, FanoutBus.subs_subscribe, if_pos rfl]

theorem change_replayed_alone :
    let c : Resuming :=
      { start with ledger := .next .start (.mutate (.apply (fun _ => .sorted) "k" (.string "a"))) }
    let sess : Session := .new "s" 64 100 128
    let resumed := handleResume .plain (⟨.plain, c.ledger.store, .new⟩, sess)
      ⟨.resume, 0, 0, .ofFields [("state", .string "k")]⟩
    ∃ d ∈ run (step "k" 0) c [.read, .subscribe, .enqueue], ∃ streamID deltas,
      d.queue = c.queue ++ deltas ∧ resumed.2.queue = sess.queue ++ deltas.map (.delta streamID) ∧
        resumed.1.fanout.subs "k" = [⟨sess.id, streamID⟩] := by
  intro c sess
  obtain ⟨d, hd, hroom⟩ : ∃ d ∈ run (step "k" 0) c [.read, .subscribe, .enqueue],
    sess.queue.length + d.queue.length ≤ sess.backpressure := by decide +kernel
  exact ⟨d, hd, handleResume_eq_run ⟨"k", [], 0, .empty⟩ rfl rfl rfl (by decide) rfl hd hroom⟩

/-! ### What a timely run keeps -/

structure Kept (key : String) (v : ℕ) (c : Resuming) : Prop where
  ledger : ∀ key, c.ledger.Sound key
  flying : (c.flying.map DeltaEntry.version).Sublist (c.ledger.pushed key)
  queue : ∀ n ∈ c.enqueued, n ∈ c.ledger.pushed key
  turn : InTurn v (c.ledger.pushed key) c.enqueued
  replay : c.stage.replay.map DeltaEntry.version <+: (c.ledger.pushed key).filter (v < ·)
  silent : c.stage.listening = false → c.queue = []
  covered : c.stage ≠ .before → ∀ n ∈ c.ledger.pushed key, v < n →
    n ∈ c.stage.replay.map DeltaEntry.version ∨ n ∈ c.flying.map DeltaEntry.version ∨
      n ∈ c.enqueued

theorem kept_start (key : String) (v : ℕ) : start.Kept key v where
  ledger := Ledger.sound_start
  flying := nil_sublist _
  queue := fun _ hn => absurd hn not_mem_nil
  turn := .nil
  replay := nil_prefix
  silent := fun _ => rfl
  covered := fun h => absurd rfl h

section Steps
variable {key : String} {v : ℕ} {c d : Resuming}

theorem sound_next (hc : ∀ key, c.ledger.Sound key) {m : Mutation} (hwrap : c.NoWrap (.mutate m))
    (key : String) : (c.ledger.next (.mutate m)).Sound key := by
  have hmoves := Ledger.moves_next hc (.mutate m) hwrap
  exact (hc key).move hmoves.counter (hmoves.keys key)

theorem Kept.mutate (h : c.Kept key v) {m : Mutation} (hwrap : c.NoWrap (.mutate m))
    (hstep : c.step key v (.mutate m) = some d) : d.Kept key v := by
  have hsound := sound_next h.ledger hwrap
  have hpushed := pushed_mutate c.ledger m key
  rw [step, some.injEq] at hstep
  rw [← hstep]
  set more := (m.run c.ledger.store).2.toList.filter fun d => d.key = key with hmore
  have hsorted := hpushed ▸ (hsound key).sorted
  have hold : ∀ n ∈ c.ledger.pushed key, n ∈ (c.ledger.next (.mutate m)).pushed key := by
    intro n hn
    rw [hpushed]
    exact mem_append_left _ hn
  refine ⟨hsound, ?_, fun n hn => hold n (h.queue n hn), ?_, ?_, h.silent, ?_⟩
  · change ((c.flying ++ more).map DeltaEntry.version).Sublist
      ((c.ledger.next (.mutate m)).pushed key)
    rw [hpushed, map_append]
    exact h.flying.append (List.Sublist.refl _)
  · change InTurn v ((c.ledger.next (.mutate m)).pushed key) c.enqueued
    rw [hpushed]
    exact h.turn.issue h.queue hsorted
  · change _ <+: ((c.ledger.next (.mutate m)).pushed key).filter (v < ·)
    rw [hpushed, filter_append]
    exact h.replay.trans (prefix_append _ _)
  · intro hstage n hn hvn
    rw [hpushed] at hn
    rw [map_append, mem_append]
    rcases mem_append.mp hn with hn | hn
    · rcases h.covered hstage n hn hvn with hn | hn | hn
      · exact .inl hn
      · exact .inr (.inl (.inl hn))
      · exact .inr (.inr hn)
    · exact .inr (.inl (.inr hn))

variable {i : ℕ} {e : ResumeEvent}

theorem deliver_eq_some (h : c.step key v (.deliver i) = some d) :
    ∃ e, c.flying[i]? = some e ∧ e ∈ c.flying ∧
      (∀ x ∈ c.flying, x = e ∨ x ∈ c.flying.eraseIdx i) ∧ d = { c with
        flying := c.flying.eraseIdx i
        queue := if c.stage.listening then c.queue ++ [e] else c.queue } := by
  rw [step] at h
  cases hi : c.flying[i]? with
  | none =>
    rw [hi] at h
    cases h
  | some e =>
    rw [hi] at h
    obtain ⟨hlt, he⟩ := List.getElem?_eq_some_iff.mp hi
    have hperm : (e :: c.flying.eraseIdx i).Perm c.flying := by
      rw [← he]
      exact List.getElem_cons_eraseIdx_perm hlt
    refine ⟨e, rfl, List.mem_of_getElem? hi, fun x hx => ?_, (Option.some.inj h).symm⟩
    exact List.mem_cons.mp (hperm.mem_iff.mpr hx)

theorem enqueued_deliver (c : Resuming) (e : DeltaEntry) (flying : List DeltaEntry) : ({ c with
      flying := flying
      queue := if c.stage.listening then c.queue ++ [e] else c.queue } : Resuming).enqueued =
      if c.stage.listening then c.enqueued ++ [e.version] else c.enqueued := by
  rw [enqueued]
  split_ifs
  · exact map_append
  · rfl

theorem Timely.cases {e : DeltaEntry} (h : c.Timely key v (.deliver i))
    (he : c.flying[i]? = some e) (hv : v < e.version) : (c.stage.listening = true →
      ∀ n ∈ c.ledger.pushed key, v < n → n < e.version → n ∈ c.enqueued) ∧
    (c.stage ≠ .before → c.stage.listening = false →
      e.version ∈ c.stage.replay.map DeltaEntry.version) := by
  have hnow := h e he hv
  cases hstage : c.stage with
  | before => exact ⟨Bool.noConfusion, fun hne => absurd rfl hne⟩
  | read =>
    rw [hstage] at hnow
    exact ⟨Bool.noConfusion, fun _ _ => hnow⟩
  | subscribed deltas | done =>
    rw [hstage] at hnow
    exact ⟨fun _ => hnow, fun _ hfalse => by cases hfalse⟩

section
variable (h : c.Kept key v)
include h

theorem Kept.deliver (htimely : c.Timely key v (.deliver i))
    (hstep : c.step key v (.deliver i) = some d) : d.Kept key v := by
  obtain ⟨e, he, hmem, hrest, rfl⟩ := deliver_eq_some hstep
  refine ⟨h.ledger, ((eraseIdx_sublist _ _).map _).trans h.flying, ?_, ?_, h.replay, ?_, ?_⟩
  · intro n hn
    rw [enqueued_deliver] at hn
    split_ifs at hn
    · rcases mem_append.mp hn with hn | hn
      · exact h.queue n hn
      · exact mem_singleton.mp hn ▸ h.flying.subset (mem_map_of_mem hmem)
    · exact h.queue n hn
  · rw [enqueued_deliver]
    split_ifs with hlisten
    · exact h.turn.snoc fun hv => (htimely.cases he hv).1 hlisten
    · exact h.turn
  · intro hsilent
    rw [if_neg (by rw [hsilent]; exact Bool.false_ne_true)]
    exact h.silent hsilent
  · intro hstage n hn hv
    rw [enqueued_deliver]
    rcases h.covered hstage n hn hv with hin | hin | hin
    · exact .inl hin
    · obtain ⟨x, hx, rfl⟩ := mem_map.mp hin
      rcases hrest x hx with rfl | hx
      · by_cases hlisten : c.stage.listening = true
        · right
          right
          rw [if_pos hlisten]
          exact mem_append_right _ mem_cons_self
        · exact .inl ((htimely.cases he hv).2 hstage (Bool.not_eq_true _ ▸ hlisten))
      · exact .inr (.inl (mem_map_of_mem hx))
    · right
      right
      split_ifs
      · exact mem_append_left _ hin
      · exact hin

theorem Kept.read (hstep : c.step key v .read = some d) : d.Kept key v := by
  rw [step] at hstep
  cases hstage : c.stage with
  | before =>
    rw [hstage] at hstep
    obtain ⟨deltas, hsince, rfl⟩ := map_eq_some_iff.mp hstep
    have hversions := versions_deltasSince (h.ledger key) hsince
    refine ⟨h.ledger, h.flying, h.queue, h.turn, ?_, fun _ => h.silent (by rw [hstage]; rfl), ?_⟩
    · change deltas.map DeltaEntry.version <+: _
      rw [hversions]
    · intro _ n hn hv
      left
      change n ∈ deltas.map DeltaEntry.version
      rw [hversions]
      exact mem_filter.mpr ⟨hn, decide_eq_true hv⟩
  | _ =>
    rw [hstage] at hstep
    cases hstep

theorem Kept.subscribe (hstep : c.step key v .subscribe = some d) :
    d.Kept key v := by
  obtain ⟨hledger, hflying, hqueue, hturn, hreplay, -, hcovered⟩ := h
  rw [step] at hstep
  cases hstage : c.stage with
  | read =>
    rw [hstage] at hstep hreplay hcovered
    cases hstep
    exact ⟨hledger, hflying, hqueue, hturn, hreplay, Bool.noConfusion, fun _ => hcovered (by simp)⟩
  | _ =>
    rw [hstage] at hstep
    cases hstep

theorem Kept.enqueue (hstep : c.step key v .enqueue = some d) :
    d.Kept key v := by
  obtain ⟨hledger, hflying, hqueue, hturn, hreplay, -, hcovered⟩ := h
  rw [step] at hstep
  cases hstage : c.stage with
  | subscribed deltas =>
    rw [hstage] at hstep hreplay hcovered
    cases hstep
    have henqueued : (c.queue ++ deltas).map DeltaEntry.version =
        c.enqueued ++ deltas.map DeltaEntry.version := map_append
    refine ⟨hledger, hflying, ?_, ?_, nil_prefix, Bool.noConfusion, ?_⟩
    · intro n hn
      rw [enqueued, henqueued] at hn
      rcases mem_append.mp hn with hn | hn
      · exact hqueue n hn
      · exact (mem_filter.mp (hreplay.subset hn)).1
    · rw [enqueued, henqueued]
      exact hturn.append (hledger key).sorted hreplay
    · intro _ n hn hv
      rw [enqueued, henqueued, mem_append]
      rcases hcovered (by simp) n hn hv with hin | hin | hin
      · exact .inr (.inr (.inr hin))
      · exact .inr (.inl hin)
      · exact .inr (.inr (.inl hin))
  | _ =>
    rw [hstage] at hstep
    cases hstep

theorem Kept.step (hwrap : c.NoWrap e) (htimely : c.Timely key v e)
    (hstep : c.step key v e = some d) : d.Kept key v := by
  cases e with
  | mutate => exact h.mutate hwrap hstep
  | deliver => exact h.deliver htimely hstep
  | read => exact h.read hstep
  | subscribe => exact h.subscribe hstep
  | enqueue => exact h.enqueue hstep

end

theorem finished_iff : c.finished = true ↔ c.stage = .done ∧ c.flying = [] := by
  rw [finished]
  split
  · rename_i hdone
    simp [hdone]
  · rename_i hnot
    exact ⟨fun h => absurd h Bool.false_ne_true, fun h => (hnot h.1).elim⟩

theorem Kept.complete (h : c.Kept key v) (hfinished : c.finished = true) : c.Complete key v := by
  obtain ⟨hdone, hflying⟩ := finished_iff.mp hfinished
  have hall : ∀ n ∈ c.ledger.pushed key, v < n → n ∈ c.enqueued := by
    intro n hn hv
    have hcovered := h.covered (by rw [hdone]; simp) n hn hv
    rw [hdone, hflying] at hcovered
    simpa [ResumeStage.replay] using hcovered
  exact ⟨hall, fun m hm n hn hvm hmn => h.turn.idxOf_lt hm (hall n hn (hvm.trans hmn)) hvm hmn⟩

/-! ### What an untimely delivery leaves behind -/

inductive Broken (key : String) (v : ℕ) (c : Resuming) : Prop where
  | lost (n : ℕ) (hn : n ∈ c.ledger.pushed key) (hv : v < n) (hstage : c.stage ≠ .before)
      (hreplay : n ∉ c.stage.replay.map DeltaEntry.version)
      (hflying : n ∉ c.flying.map DeltaEntry.version) (hqueue : n ∉ c.enqueued)
  | ahead (m n : ℕ) (hm : m ∈ c.ledger.pushed key) (hn : n ∈ c.ledger.pushed key) (hv : v < m)
      (hmn : m < n) (pre post : List ℕ) (heq : c.enqueued = pre ++ n :: post) (hpre : m ∉ pre)

theorem Broken.not_complete (h : c.Broken key v) : ¬ c.Complete key v := by
  intro hcomplete
  cases h with
  | lost n hn hv _ _ _ hqueue => exact hqueue (hcomplete.all n hn hv)
  | ahead m n hm hn hv hmn pre post heq hpre =>
    have hlt := hcomplete.ordered m hm n hn hv hmn
    have hle : (pre ++ n :: post).idxOf n ≤ pre.length := by
      by_cases hmem : n ∈ pre
      · rw [idxOf_append_of_mem hmem]
        exact idxOf_le_length
      · rw [idxOf_append_of_notMem hmem, idxOf_cons_self, Nat.add_zero]
    rw [heq, idxOf_append_of_notMem hpre] at hlt
    omega

section
variable (hstep : c.step key v e = some d)
include hstep

theorem enqueued_step : c.enqueued <+: d.enqueued := by
  cases e with
  | mutate =>
    rw [← some.inj hstep]
    exact prefix_refl _
  | deliver =>
    obtain ⟨e, -, -, -, rfl⟩ := deliver_eq_some hstep
    rw [enqueued_deliver]
    split_ifs
    · exact prefix_append _ _
    · exact prefix_refl _
  | read =>
    rw [step] at hstep
    split at hstep
    · obtain ⟨-, -, rfl⟩ := map_eq_some_iff.mp hstep
      exact prefix_refl _
    · cases hstep
  | subscribe =>
    rw [step] at hstep
    split at hstep
    · rw [← some.inj hstep]
      exact prefix_refl _
    · cases hstep
  | enqueue =>
    rw [step] at hstep
    split at hstep
    · rw [← some.inj hstep, enqueued, enqueued, map_append]
      exact prefix_append _ _
    · cases hstep

theorem ledger_step :
    d.ledger = c.ledger ∨ ∃ m, e = .mutate m ∧ d.ledger = c.ledger.next (.mutate m) := by
  cases e with
  | mutate m =>
    rw [← some.inj hstep]
    exact .inr ⟨m, rfl, rfl⟩
  | deliver =>
    obtain ⟨e, -, -, -, rfl⟩ := deliver_eq_some hstep
    exact .inl rfl
  | read =>
    rw [step] at hstep
    split at hstep
    · obtain ⟨-, -, rfl⟩ := map_eq_some_iff.mp hstep
      exact .inl rfl
    · cases hstep
  | _ =>
    rw [step] at hstep
    split at hstep
    · rw [← some.inj hstep]
      exact .inl rfl
    · cases hstep

theorem pushed_step :
    c.ledger.pushed key <+: d.ledger.pushed key := by
  rcases ledger_step hstep with hledger | ⟨m, -, hledger⟩
  · rw [hledger]
  · rw [hledger, pushed_mutate]
    exact prefix_append _ _

end

theorem sound_step (hc : ∀ key, c.ledger.Sound key) (hwrap : c.NoWrap e)
    (hstep : c.step key v e = some d) (k : String) : d.ledger.Sound k := by
  rcases ledger_step hstep with hledger | ⟨m, rfl, hledger⟩
  · exact hledger ▸ hc k
  · exact hledger ▸ sound_next hc hwrap k

theorem Broken.step (h : c.Broken key v) (hc : ∀ key, c.ledger.Sound key) (hwrap : c.NoWrap e)
    (hstep : c.step key v e = some d) : d.Broken key v := by
  have hpushed := (pushed_step hstep).subset
  cases h with
  | ahead m n hm hn hv hmn pre post heq hpre =>
    obtain ⟨rest, hrest⟩ := enqueued_step hstep
    refine .ahead m n (hpushed hm) (hpushed hn) hv hmn pre (post ++ rest) ?_ hpre
    rw [← hrest, heq, append_assoc, cons_append]
  | lost n hn hv hstage hreplay hflying hqueue =>
    cases e with
    | mutate =>
      have hsorted := (sound_next hc hwrap key).sorted
      rw [pushed_mutate] at hsorted
      rw [← some.inj hstep] at hpushed ⊢
      refine .lost n (hpushed hn) hv hstage hreplay ?_ hqueue
      rw [map_append, mem_append]
      rintro (hin | hin)
      · exact hflying hin
      · exact absurd ((pairwise_append.mp hsorted).2.2 n hn n hin) (lt_irrefl n)
    | deliver =>
      obtain ⟨e, -, hmem, -, rfl⟩ := deliver_eq_some hstep
      refine .lost n hn hv hstage hreplay ?_ ?_
      · exact fun hin => hflying (((eraseIdx_sublist _ _).map _).subset hin)
      · rw [enqueued_deliver]
        split_ifs
        · intro hin
          rcases mem_append.mp hin with hin | hin
          · exact hqueue hin
          · exact hflying (mem_singleton.mp hin ▸ mem_map_of_mem hmem)
        · exact hqueue
    | read =>
      rw [Resuming.step] at hstep
      split at hstep
      · exact absurd ‹_› hstage
      · cases hstep
    | subscribe =>
      rw [Resuming.step] at hstep
      split at hstep
      · rename_i deltas hread
        rw [hread] at hreplay
        rw [← some.inj hstep]
        exact .lost n hn hv (by simp) hreplay hflying hqueue
      · cases hstep
    | enqueue =>
      rw [Resuming.step] at hstep
      split at hstep
      · rename_i deltas hsubscribed
        rw [hsubscribed] at hreplay
        rw [← some.inj hstep]
        refine .lost n hn hv (by simp) not_mem_nil hflying ?_
        rw [enqueued, map_append, mem_append]
        exact fun hin => hin.elim hqueue hreplay
      · cases hstep

theorem Kept.broken (h : c.Kept key v) (hnot : ¬ c.Timely key v e)
    (hstep : c.step key v e = some d) : d.Broken key v := by
  cases e with
  | deliver i =>
    obtain ⟨e, he, hmem, -, rfl⟩ := deliver_eq_some hstep
    have hissued := h.flying.subset (List.mem_map_of_mem hmem)
    have huntimely : ¬ (v < e.version → match c.stage with
        | .before => True
        | .read deltas => e.version ∈ deltas.map DeltaEntry.version
        | _ => ∀ n ∈ c.ledger.pushed key, v < n → n < e.version → n ∈ c.enqueued) := by
      intro htimely
      refine hnot fun x hx => ?_
      rw [he, Option.mem_some_iff] at hx
      exact hx ▸ htimely
    rw [Classical.not_imp] at huntimely
    obtain ⟨hv, huntimely⟩ := huntimely
    have hahead : c.stage.listening = true →
        ¬ (∀ n ∈ c.ledger.pushed key, v < n → n < e.version → n ∈ c.enqueued) →
        Broken key v { c with
          flying := c.flying.eraseIdx i
          queue := if c.stage.listening then c.queue ++ [e] else c.queue } := by
      intro hlisten hmissing
      push Not at hmissing
      obtain ⟨n, hn, hvn, hlt, hqueue⟩ := hmissing
      refine .ahead n e.version hn hissued hvn hlt c.enqueued [] ?_ hqueue
      rw [enqueued_deliver, if_pos hlisten]
    cases hstage : c.stage with
    | before =>
      rw [hstage] at huntimely
      exact absurd trivial huntimely
    | read =>
      have hsilent := h.silent (by rw [hstage]; rfl)
      rw [hstage] at huntimely
      refine .lost e.version hissued hv (by simp) huntimely ?_ ?_
      · have hnodup : (c.flying.map DeltaEntry.version).Nodup :=
          ((h.ledger key).sorted.sublist h.flying).imp fun hlt => hlt.ne
        obtain ⟨hlt, rfl⟩ := List.getElem?_eq_some_iff.mp he
        have hperm := (List.getElem_cons_eraseIdx_perm hlt).map DeltaEntry.version
        rw [← hperm.nodup_iff, List.map_cons, List.nodup_cons] at hnodup
        exact hnodup.1
      · rw [enqueued]
        rw [hsilent]
        exact List.not_mem_nil
    | subscribed deltas | done =>
      rw [hstage] at huntimely hahead
      exact hahead rfl huntimely
  | _ => exact absurd trivial hnot

end Steps

/-! ### Runs -/

theorem timely_of_complete {key : String} {v : ℕ} {c d : Resuming} {events : List ResumeEvent}
    (h : c.Kept key v) (hwrap : Along (step key v) NoWrap c events)
    (hrun : run (step key v) c events = some d) (hcomplete : d.Complete key v) :
    Along (step key v) (Timely key v) c events := by
  induction events generalizing c with
  | nil => trivial
  | cons e events ih =>
    obtain ⟨m, hm, hrest⟩ := run_cons_eq_some.mp hrun
    by_cases htimely : c.Timely key v e
    · refine ⟨htimely, ?_⟩
      rw [hm]
      exact ih (h.step hwrap.1 htimely hm) (hwrap.tail hm) hrest
    -- nothing that comes after an untimely delivery repairs it
    · have hbroken := invariant_along (I := fun c => (∀ key, c.ledger.Sound key) ∧ c.Broken key v)
        (fun c e d hc hw hs => ⟨sound_step hc.1 hw hs, hc.2.step hc.1 hw hs⟩)
        ⟨sound_step h.ledger hwrap.1 hm, h.broken htimely hm⟩ (hwrap.tail hm) hrest
      exact absurd hcomplete hbroken.2.not_complete

/-- In every run of one RESUME and any number of changes, seen to its end: the session has every
delta past `v`, first occurrences in order, exactly if every delivery was timely. -/
theorem complete_iff_timely {key : String} {v : ℕ} {c : Resuming} {events : List ResumeEvent}
    (hrun : run (step key v) start events = some c)
    (hwrap : Along (step key v) NoWrap start events) (hfinished : c.finished = true) :
    c.Complete key v ↔ Along (step key v) (Timely key v) start events := by
  refine ⟨timely_of_complete (kept_start key v) hwrap hrun, fun htimely => ?_⟩
  refine Kept.complete ?_ hfinished
  exact invariant_along (I := Kept key v) (fun c e d hc hok hs => hc.step hok.1 hok.2 hs)
    (kept_start key v) (hwrap.and htimely) hrun

instance (c : Resuming) (e : ResumeEvent) : Decidable (c.NoWrap e) := by
  unfold NoWrap
  split <;> infer_instance

instance (key : String) (v : ℕ) (c : Resuming) (e : ResumeEvent) :
    Decidable (c.Timely key v e) := by
  unfold Timely
  split
  · cases c.stage <;> infer_instance
  · infer_instance

def quietResume : List ResumeEvent :=
  [.mutate (.apply (fun _ => .sorted) "k" (.string "a")), .deliver 0,
    .mutate (.apply (fun _ => .sorted) "k" (.string "b")), .read, .deliver 0, .subscribe, .enqueue,
    .mutate (.apply (fun _ => .sorted) "k" (.string "c")), .deliver 0]

theorem quiet_resume_is_complete :
    ∃ c, run (step "k" 1) start quietResume = some c ∧ c.enqueued = [2, 3] ∧ c.Complete "k" 1 := by
  refine exists_run (fun c => c.enqueued = [2, 3] ∧ c.finished = true) (by decide +kernel) ?_
  rintro c hrun ⟨henqueued, hfinished⟩
  exact ⟨henqueued, (complete_iff_timely hrun (by decide +kernel) hfinished).mpr
    (by decide +kernel)⟩

def gapResume : List ResumeEvent :=
  [.mutate (.apply (fun _ => .sorted) "k" (.string "a")), .deliver 0,
    .mutate (.apply (fun _ => .sorted) "k" (.string "b")), .deliver 0, .read,
    .mutate (.apply (fun _ => .sorted) "k" (.string "c")), .deliver 0, .subscribe, .enqueue]

theorem gap_resume_loses_delta :
    ∃ c, run (step "k" 1) start gapResume = some c ∧ c.finished = true ∧
      c.ledger.pushed "k" = [1, 2, 3] ∧ c.enqueued = [2] ∧ ¬ c.Complete "k" 1 := by
  refine exists_run (fun c => c.finished = true ∧ c.ledger.pushed "k" = [1, 2, 3] ∧
    c.enqueued = [2]) (by decide +kernel) ?_
  rintro c - ⟨hfinished, hpushed, henqueued⟩
  refine ⟨hfinished, hpushed, henqueued, fun hcomplete => ?_⟩
  have hall := hcomplete.all 3 (by rw [hpushed]; decide) (by decide)
  rw [henqueued] at hall
  exact absurd hall (by decide)

end Resuming

end Sodp.GoServer
