import Sodp.DeltaHistory
import Sodp.LogAppend

/-!
# Replays of a store over its files

The store over its files follows the store over its records as long as every append succeeds and a
restart can read back what it finds. So the ledger of the deltas tells what a replay misses.
-/

namespace Sodp.FileStore
open RecordFile FileLog StampedLog DeltaLog StateStore List Option

section Runs
variable (codec : Codec LogEntry)

/-- Every append succeeds. -/
def handle (d : FileStore) : StoreEvent → FileStore
  | .call c => (d.exec codec c none).1
  | .compact => { d with plog := d.plog.compact codec d.memory.snapshot }
  | .reopen => openStore codec d.plog.logDir

def handleAll (d : FileStore) (events : List StoreEvent) : FileStore :=
  events.foldl (handle codec) d

structure Follows (d : FileStore) (s : StateStore) : Prop where
  memory : d.memory = { s with plog := none }
  files : ∃ plog, s.plog = some plog ∧ Matches codec d.plog plog

end Runs

/-- What a restart finds in the log can be read back. -/
def RestartsRead (format : Codec Item) : StateStore → List StoreEvent → Prop
  | _, [] => True
  | s, event :: events => (event = .reopen → ∀ r ∈ s.records, r.ReadBack format) ∧
    RestartsRead format (s.handle event).1 events

variable {codec : Codec LogEntry} {d : FileStore} {s : StateStore} {c : Call}

theorem exec_without_plog (s : StateStore) (c : Call) :
    ({ s with plog := none } : StateStore).exec c =
      ({ (s.exec c).1 with plog := none }, (s.exec c).2) := by
  have hpersist : ∀ (t : StateStore) (entry : LogEntry),
      ({ t.persist entry with plog := none } : StateStore) = { t with plog := none } := by
    intro t entry
    rw [persist]
    split_ifs <;> rfl
  have hrecord : ({ s with plog := none } : StateStore).recordOf c = s.recordOf c := by
    cases c <;> rfl
  rcases exec_cases s c with ⟨entry, h⟩ | ⟨key, newValue, rfl, h⟩ | ⟨key, rfl, h⟩
  · rw [exec_of_record h, exec_of_record (hrecord.trans h), hpersist]
    cases c <;> rfl
  · rw [exec_apply_same h, exec_apply_same (s := { s with plog := none }) h]
    rfl
  · rw [exec_delete_absent h, exec_delete_absent (s := { s with plog := none }) h]

theorem Follows.exec (h : Follows codec d s) (c : Call) :
    Follows codec (d.exec codec c none).1 (s.exec c).1 := by
  obtain ⟨plog, hplog, hmatches⟩ := h.files
  have hmemory : (d.memory.exec c).1 = { (s.exec c).1 with plog := none } := by
    rw [h.memory, exec_without_plog]
  have hrecord : d.memory.recordOf c = s.recordOf c := by
    rw [h.memory]
    cases c <;> rfl
  refine ⟨hmemory, ?_⟩
  rcases exec_cases s c with ⟨entry, hentry⟩ | ⟨key, newValue, rfl, hsame⟩ | ⟨key, rfl, habsent⟩
  · have happend := hmatches.append entry
    have hlog : (d.tryAppend codec c none).1 = d.plog.append codec entry := by
      rw [tryAppend, hrecord, hentry]
      rfl
    have hbefore : ((s.touch c).logDelta entry.key entry.version entry.ops).plog = some plog := by
      cases c <;> exact hplog
    have hsnapshot : (d.memory.exec c).1.snapshot =
        ((s.touch c).logDelta entry.key entry.version entry.ops).snapshot := by
      rw [hmemory, exec_of_record hentry, snapshot, entries_persist, snapshot]
    rw [FileStore.exec, hlog, hrecord, hentry, exec_of_record hentry, persist, needsCompact,
      writeLog, hbefore]
    by_cases hneeds : SegmentedLog.maxSegmentsBeforeCompact < (plog.append entry).segmentCount
    · rw [if_pos (by simpa [SegmentedLog.needsCompact] using hneeds),
        if_pos ⟨rfl, happend.segmentCount ▸ hneeds⟩, hsnapshot]
      exact ⟨_, rfl, happend.compact _⟩
    · rw [if_neg (by simpa [SegmentedLog.needsCompact] using hneeds),
        if_neg (fun hcompact => hneeds (happend.segmentCount ▸ hcompact.2))]
      exact ⟨_, rfl, happend⟩
  · have hnone : s.recordOf (.apply key newValue) = none := if_pos hsame
    rw [FileStore.exec, tryAppend, hrecord, hnone, exec_apply_same hsame]
    exact ⟨plog, hplog, hmatches⟩
  · have hnone : s.recordOf (.delete key) = none := if_pos habsent
    rw [FileStore.exec, tryAppend, hrecord, hnone, exec_delete_absent habsent]
    exact ⟨plog, hplog, hmatches⟩

theorem Follows.compact (h : Follows codec d s) :
    Follows codec (d.handle codec .compact) s.compactPlog := by
  obtain ⟨plog, hplog, hmatches⟩ := h.files
  refine ⟨h.memory, plog.compact s.snapshot, ?_, ?_⟩
  · rw [compactPlog, hplog, map_some]
  · have hsnapshot : d.memory.snapshot = s.snapshot := by
      rw [h.memory]
      rfl
    rw [handle, hsnapshot]
    exact hmatches.compact _

theorem follows_openStore {files : Files} {logDir : Directory} (hstored : Stored codec files logDir)
    (hread : ∀ r ∈ logDir.records, Lossless codec r) :
    Follows codec (openStore codec files) (openDir logDir) := by
  refine ⟨?_, _, rfl, (hstored.openFiles hread).1⟩
  rw [openStore, hstored.readDir_eq hread]

theorem Follows.reopen (h : Follows codec d s) (hread : ∀ r ∈ s.records, Lossless codec r) :
    Follows codec (d.handle codec .reopen) s.reopen := by
  obtain ⟨plog, hplog, hmatches⟩ := h.files
  rw [records, hplog] at hread
  rw [StateStore.reopen, hplog]
  exact follows_openStore hmatches.stored hread

theorem Follows.handleAll {format : Codec Item} (h : Follows (payloadCodec format) d s)
    {events : List StoreEvent} (hread : RestartsRead format s events) :
    Follows (payloadCodec format) (d.handleAll (payloadCodec format) events)
      (s.handleAll events) := by
  induction events generalizing d s with
  | nil => exact h
  | cons event events ih =>
    refine ih ?_ hread.2
    cases event with
    | call c => exact h.exec c
    | compact => exact h.compact
    | reopen => exact h.reopen fun r hr => (hread.1 rfl r hr).lossless

theorem follows_empty (codec : Codec LogEntry) :
    Follows codec (openStore codec .empty) (openDir .empty) :=
  follows_openStore stored_empty fun _ hr => absurd hr not_mem_nil

/-- If no append fails and restarts can read the log back, a replay is complete or empty exactly
when nothing newer is left in memory, or everything newer is and fits the bound. -/
theorem deltasSince_complete_or_empty_iff {format : Codec Item} {events : List StoreEvent}
    (hread : RestartsRead format (openDir .empty) events) (key : String) (sinceVersion : ℕ) :
    let d := (openStore (payloadCodec format) .empty).handleAll (payloadCodec format) events
    (d.memory.deltasSince key sinceVersion =
        ((ledger key events).issued.filter fun d => sinceVersion < d.1) ∧
        (d.memory.deltasSince key sinceVersion).Pairwise (fun a b => a.1 < b.1) ∨
      d.memory.deltasSince key sinceVersion = []) ↔
    ((ledger key events).inMemory.filter fun d => sinceVersion < d.1) = [] ∨
      ((ledger key events).inMemory.filter fun d => sinceVersion < d.1) =
        ((ledger key events).issued.filter fun d => sinceVersion < d.1) ∧
      ((ledger key events).issued.filter fun d => sinceVersion < d.1).length ≤
        maxDeltaLogEntriesPerKey := by
  have hfollows := (follows_empty (payloadCodec format)).handleAll hread
  dsimp only
  rw [hfollows.memory]
  exact (kept_ledger key events).complete_or_empty_iff sinceVersion

def restarted : List StoreEvent :=
  [.call (.apply "k" (.bool true)), .reopen, .call (.apply "k" (.bool false))]

theorem replay_complete_restarted :
    let d := (openStore recordCodec .empty).handleAll recordCodec restarted
    d.memory.deltasSince "k" 0 = ((ledger "k" restarted).issued.filter fun d => 0 < d.1) ∧
      (d.memory.deltasSince "k" 0).Pairwise (fun a b => a.1 < b.1) ∨
    d.memory.deltasSince "k" 0 = [] := by
  refine (deltasSince_complete_or_empty_iff ?_ "k" 0).mpr (by decide +kernel)
  refine ⟨by simp, fun _ r hr => ?_, by simp, trivial⟩
  have hrecord : r = addedRecord := by
    have hrecords : ((openDir .empty).handle (.call (.apply "k" (.bool true)))).1.records =
        [addedRecord] := by decide +kernel
    exact mem_singleton.mp (hrecords ▸ hr)
  rw [hrecord]
  refine ⟨shortFormat_carries mem_cons_self (by decide +kernel), by decide +kernel, ?_⟩
  exact fun op hop => ⟨.bool true, by rw [mem_singleton.mp hop]; rfl, Value.noConfusion⟩

theorem restartsRead_countTo (format : Codec Item) (s : StateStore) (n : ℕ) :
    RestartsRead format s (countTo n) := by
  rw [countTo]
  generalize List.range n = is
  induction is generalizing s with
  | nil => trivial
  | cons i is ih => exact ⟨by simp, ih _⟩

theorem length_deltasSince_countTo (format : Codec Item) (n : ℕ) :
    (((openStore (payloadCodec format) .empty).handleAll (payloadCodec format)
      (countTo n)).memory.deltasSince "k" 0).length = min maxDeltaLogEntriesPerKey n := by
  obtain ⟨-, -, hmem, hlen⟩ := countTo_issues n
  have hfollows := (follows_empty (payloadCodec format)).handleAll
    (restartsRead_countTo format (openDir .empty) n)
  have hreplay := (kept_ledger "k" (countTo n)).deltasSince_eq 0
  rw [hfollows.memory]
  change (((openDir .empty).handleAll (countTo n)).deltasSince "k" 0).length = _
  rw [hreplay, length_rtake, hmem, hlen]

/-- After 1001 writes the first delta is gone, and the replay from the start holds the other 1000 of
them: it is neither complete nor empty. -/
theorem deltasSince_partial :
    (((openStore recordCodec .empty).handleAll recordCodec (countTo 1001)).memory.deltasSince
      "k" 0).length = 1000 ∧
    ((ledger "k" (countTo 1001)).issued.filter fun d => 0 < d.1).length = 1001 :=
  ⟨length_deltasSince_countTo (shortFormat [addedRecord]) 1001, (countTo_issues 1001).2.2.2⟩

end Sodp.FileStore
