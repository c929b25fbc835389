import Sodp.SegmentedLog
import Sodp.StampedLog

/-!
# The versioned state store

The store maps each key to its value and the version of the call that wrote it, draws versions from
one global counter, keeps the last deltas of each key, and writes every effective call to the
on-disk log when it has one. `apply` is cut into the steps that other calls can come between. The
64-bit counter is taken not to wrap.
-/

namespace Sodp
open Delta StampedLog OrderedMap List Option

structure StateEntry where
  version : ℕ
  value : Value
deriving DecidableEq

structure DeltaLog where
  entries : OrderedMap String (List (ℕ × List DeltaOp))

variable (log : DeltaLog)

namespace DeltaLog

def maxDeltaLogEntriesPerKey : ℕ := 1000

def new : DeltaLog := ⟨.empty⟩

def append (log : DeltaLog) (key : String) (version : ℕ) (ops : List DeltaOp) : DeltaLog :=
  let entry := (log.entries.get? key).getD [] ++ [(version, ops)]
  let excess := entry.length - maxDeltaLogEntriesPerKey
  ⟨log.entries.insert key
    (if maxDeltaLogEntriesPerKey < entry.length then entry.drop excess else entry)⟩

def since (log : DeltaLog) (key : String) (sinceVersion : ℕ) : List (ℕ × List DeltaOp) :=
  match log.entries.get? key with
  | none => []
  | some entries => entries.filter fun d => sinceVersion < d.1

def held (log : DeltaLog) (key : String) : List (ℕ × List DeltaOp) :=
  (log.entries.get? key).getD []

variable (key : String)

@[simp] theorem held_new : new.held key = [] := rfl

theorem held_append_self (version : ℕ) (ops : List DeltaOp) :
    (log.append key version ops).held key =
      (log.held key ++ [(version, ops)]).rtake maxDeltaLogEntriesPerKey := by
  rw [held, append, get?_insert_self, getD_some, List.rtake, held]
  split_ifs with h
  · rfl
  · rw [Nat.sub_eq_zero_of_le (not_lt.mp h), drop_zero]

theorem held_append_of_ne {key j : String} (h : j ≠ key) (version : ℕ)
    (ops : List DeltaOp) : (log.append key version ops).held j = log.held j := by
  rw [held, append, get?_insert_of_ne _ h, held]

theorem since_eq_filter (sinceVersion : ℕ) :
    log.since key sinceVersion = (log.held key).filter fun d => sinceVersion < d.1 := by
  rw [since, held]
  cases log.entries.get? key <;> rfl

end DeltaLog

structure StateStore where
  entries : OrderedMap String StateEntry
  globalVersion : ℕ
  log : DeltaLog
  plog : Option SegmentedLog

namespace StateStore

def new : StateStore := ⟨.empty, 0, .new, none⟩

/-- The loop body of the recovery: one record rebuilds the entry of its key and,
unless it is a snapshot record, its delta. -/
def restore (acc : OrderedMap String StateEntry × DeltaLog) (entry : LogEntry) :
    OrderedMap String StateEntry × DeltaLog :=
  (acc.1.insert entry.key ⟨entry.version, entry.value⟩,
    if entry.ops.isEmpty then acc.2 else acc.2.append entry.key entry.version entry.ops)

def sortByVersion (entries : List LogEntry) : List LogEntry := byStamp LogEntry.version entries

def openDir (logDir : Directory) : StateStore :=
  let plog := (SegmentedLog.openDir logDir).1
  let allEntries := sortByVersion (SegmentedLog.openDir logDir).2
  let restored := allEntries.foldl restore (.empty, .new)
  { entries := restored.1
    globalVersion := (allEntries.getLast?.map LogEntry.version).getD 0
    log := restored.2
    plog := some plog }

def get (s : StateStore) (key : String) : Option StateEntry := s.entries.get? key

def valueOf (s : StateStore) (key : String) : Value :=
  ((s.get key).map StateEntry.value).getD .null

def deltasSince (s : StateStore) (key : String) (sinceVersion : ℕ) : List (ℕ × List DeltaOp) :=
  s.log.since key sinceVersion

section Steps
variable (s : StateStore)

def fetchAdd : StateStore := { s with globalVersion := s.globalVersion + 1 }

def opsFor (key : String) (newValue : Value) : List DeltaOp :=
  match s.entries.get? key with
  | some existing => diff existing.value newValue
  | none => [DeltaOp.add "/" newValue]

def insertEntry (key : String) (version : ℕ) (value : Value) : StateStore :=
  { s with entries := s.entries.insert key ⟨version, value⟩ }

def removeEntry (key : String) : StateStore := { s with entries := s.entries.erase key }

def logDelta (key : String) (version : ℕ) (ops : List DeltaOp) : StateStore :=
  { s with log := s.log.append key version ops }

def snapshot : List LogEntry :=
  s.entries.toList.map fun e => ⟨e.2.version, e.1, [], e.2.value⟩

def compactPlog : StateStore := { s with plog := s.plog.map fun plog => plog.compact s.snapshot }

def writeLog (entry : LogEntry) : StateStore :=
  { s with plog := s.plog.map fun plog => plog.append entry }

def needsCompact : Bool := s.plog.any SegmentedLog.needsCompact

def persist (entry : LogEntry) : StateStore :=
  if (s.writeLog entry).needsCompact then (s.writeLog entry).compactPlog else s.writeLog entry

end Steps

def apply (s : StateStore) (key : String) (newValue : Value) : StateStore × ℕ × List DeltaOp :=
  let version := s.globalVersion + 1
  let ops := s.opsFor key newValue
  let s := s.fetchAdd.insertEntry key version newValue
  let s := if ops.isEmpty then s
    else (s.logDelta key version ops).persist ⟨version, key, ops, newValue⟩
  (s, version, ops)

def delete (s : StateStore) (key : String) : Option (StateStore × ℕ × List DeltaOp) :=
  match s.entries.get? key with
  | none => none
  | some _ =>
    let s := s.removeEntry key
    let version := s.globalVersion + 1
    let ops := [DeltaOp.remove "/"]
    let s := (s.fetchAdd.logDelta key version ops).persist ⟨version, key, ops, .null⟩
    some (s, version, ops)

inductive Call where
  | apply (key : String) (newValue : Value)
  | delete (key : String)
deriving DecidableEq

def Call.key : Call → String
  | .apply key _ => key
  | .delete key => key

def Call.value : Call → Option Value
  | .apply _ newValue => some newValue
  | .delete _ => none

def exec (s : StateStore) : Call → StateStore × Option (ℕ × List DeltaOp)
  | .apply key newValue => ((s.apply key newValue).1, some (s.apply key newValue).2)
  | .delete key =>
    match s.delete key with
    | none => (s, none)
    | some r => (r.1, some r.2)

def execAll (s : StateStore) (calls : List Call) : StateStore :=
  calls.foldl (fun s c => (s.exec c).1) s

def records (s : StateStore) : List LogEntry := (s.plog.map SegmentedLog.records).getD []

section Recovery

theorem foldl_restore_fst (l : List LogEntry) (acc : OrderedMap String StateEntry × DeltaLog) :
    (l.foldl restore acc).1 =
      l.foldl (fun m entry => m.insert entry.key ⟨entry.version, entry.value⟩) acc.1 := by
  induction l generalizing acc with
  | nil => rfl
  | cons entry l ih => exact ih _

def deltasIn (key : String) (l : List LogEntry) : List (ℕ × List DeltaOp) :=
  (l.filter fun entry => entry.key = key ∧ entry.ops ≠ []).map fun entry =>
    (entry.version, entry.ops)

variable (key : String)

theorem foldl_restore_held (l : List LogEntry) (m : OrderedMap String StateEntry) :
    (l.foldl restore (m, .new)).2.held key =
      (deltasIn key l).rtake DeltaLog.maxDeltaLogEntriesPerKey := by
  induction l using List.reverseRecOn with
  | nil => simp [deltasIn]
  | append_singleton l entry ih =>
    rw [List.foldl_append, List.foldl_cons, List.foldl_nil]
    by_cases hops : entry.ops = []
    · simpa [restore, deltasIn, hops] using ih
    · by_cases hkey : entry.key = key
      · simp only [restore, List.isEmpty_iff, hops, if_false, hkey, DeltaLog.held_append_self]
        rw [ih, rtake_append_rtake]
        simp [deltasIn, hops, hkey]
      · simp only [restore, List.isEmpty_iff, hops, if_false]
        rw [DeltaLog.held_append_of_ne _ (Ne.symm hkey), ih]
        simp [deltasIn, hkey]

def openSorted (logDir : Directory) (allEntries : List LogEntry) : StateStore :=
  let restored := allEntries.foldl restore (.empty, .new)
  { entries := restored.1
    globalVersion := (allEntries.getLast?.map LogEntry.version).getD 0
    log := restored.2
    plog := some (SegmentedLog.openDir logDir).1 }

section
variable (logDir : Directory)
include logDir

theorem get_openSorted (allEntries : List LogEntry) (key : String) :
    (openSorted logDir allEntries).get key =
      (lastOf LogEntry.key key allEntries).map fun entry => ⟨entry.version, entry.value⟩ := by
  rw [get, openSorted]
  simp only
  rw [foldl_restore_fst, get?_foldl_insert, get?_empty, or_none]

theorem get_openDir : (openDir logDir).get key =
      (latest LogEntry.key LogEntry.version key logDir.records).map fun entry =>
        ⟨entry.version, entry.value⟩ :=
  get_openSorted logDir (sortByVersion logDir.records) key

theorem globalVersion_openDir :
    (openDir logDir).globalVersion = newest LogEntry.version logDir.records := rfl

theorem held_openDir : (openDir logDir).log.held key =
      (deltasIn key (sortByVersion logDir.records)).rtake DeltaLog.maxDeltaLogEntriesPerKey :=
  foldl_restore_held key _ _

theorem records_openDir : (openDir logDir).records = logDir.records :=
  SegmentedLog.records_openDir logDir

end

/-- The sort by version is unstable: records of one version come in any order. -/
def OpensAs (logDir : Directory) (s : StateStore) : Prop :=
  ∃ allEntries : List LogEntry, allEntries.Perm logDir.records ∧
    allEntries.Pairwise (fun a b => a.version ≤ b.version) ∧ s = openSorted logDir allEntries

def directory (s : StateStore) : Directory := (s.plog.map SegmentedLog.logDir).getD .empty

theorem records_directory (s : StateStore) : s.directory.records = s.records := by
  rw [directory, records]
  cases s.plog <;> rfl

theorem opensAs_openDir (logDir : Directory) : OpensAs logDir (openDir logDir) :=
  ⟨sortByVersion logDir.records, byStamp_perm _ _, byStamp_sorted _ _, rfl⟩

variable {logDir : Directory}

theorem OpensAs.value_eq {s : StateStore} (hs : OpensAs logDir s)
    {entry : LogEntry} (hentry : entry ∈ logDir.records)
    (hsame : ∀ b ∈ logDir.records, b.key = entry.key → entry.version ≤ b.version →
      b.value = entry.value) : (s.get entry.key).map StateEntry.value = some entry.value := by
  obtain ⟨_, hperm, hsorted, rfl⟩ := hs
  rw [get_openSorted, Option.map_map]
  exact map_lastOf_eq LogEntry.key LogEntry.version LogEntry.value hperm hsorted hentry rfl hsame

theorem OpensAs.get_eq_none {s : StateStore} (hs : OpensAs logDir s)
    {key : String} (hkey : ∀ b ∈ logDir.records, b.key ≠ key) : s.get key = none := by
  obtain ⟨_, hperm, -, rfl⟩ := hs
  rw [get_openSorted, map_eq_none_iff, lastOf_eq_none_iff]
  exact fun b hb => hkey b (hperm.mem_iff.mp hb)

end Recovery

section Calls
variable (s : StateStore)

def recordOf : Call → Option LogEntry
  | .apply key newValue =>
    if s.opsFor key newValue = [] then none
    else some ⟨s.globalVersion + 1, key, s.opsFor key newValue, newValue⟩
  | .delete key =>
    if s.get key = none then none
    else some ⟨s.globalVersion + 1, key, [DeltaOp.remove "/"], .null⟩

def compactsOn (c : Call) : Bool := (s.recordOf c).any fun entry => (s.writeLog entry).needsCompact

variable {plog : SegmentedLog} {c call : Call} {entry : LogEntry} {key : String}

theorem records_compactPlog {s : StateStore} (hplog : s.plog = some plog) :
    s.compactPlog.records = s.snapshot := by
  rw [records, compactPlog, hplog, map_some, map_some, getD_some, SegmentedLog.records_compact]

theorem records_persist {s : StateStore} (hplog : s.plog = some plog) (entry : LogEntry) :
    (s.persist entry).records =
      if (s.writeLog entry).needsCompact then s.snapshot else s.records ++ [entry] := by
  rw [persist]
  split_ifs with h
  · have hwritten : (s.writeLog entry).plog = some (plog.append entry) := by
      rw [writeLog, hplog, map_some]
    exact records_compactPlog hwritten
  · simp [records, writeLog, hplog, SegmentedLog.records_append]

theorem persist_of_ephemeral {s : StateStore} (h : s.plog = none) (entry : LogEntry) :
    s.persist entry = s := by
  cases s
  subst h
  rfl

@[simp] theorem entries_persist (entry : LogEntry) : (s.persist entry).entries = s.entries := by
  rw [persist]
  split_ifs <;> rfl

@[simp] theorem globalVersion_persist (entry : LogEntry) :
    (s.persist entry).globalVersion = s.globalVersion := by
  rw [persist]
  split_ifs <;> rfl

@[simp] theorem log_persist (entry : LogEntry) : (s.persist entry).log = s.log := by
  rw [persist]
  split_ifs <;> rfl

def touch : Call → StateStore
  | .apply key newValue => s.fetchAdd.insertEntry key (s.globalVersion + 1) newValue
  | .delete key => (s.removeEntry key).fetchAdd

variable {s}

theorem exec_of_record (h : s.recordOf c = some entry) :
    s.exec c = (((s.touch c).logDelta entry.key entry.version entry.ops).persist entry,
      some (entry.version, entry.ops)) := by
  cases c with
  | apply key newValue =>
    by_cases hops : s.opsFor key newValue = []
    · simp [recordOf, hops] at h
    · rw [recordOf, if_neg hops, some.injEq] at h
      rw [← h]
      simp [exec, apply, hops, touch]
  | delete key =>
    cases hget : s.entries.get? key with
    | none => simp [recordOf, get, hget] at h
    | some =>
      rw [recordOf, get, hget, if_neg (by simp), some.injEq] at h
      rw [← h]
      simp only [exec, delete, hget]
      rfl

theorem exec_apply_same {newValue : Value} (h : s.opsFor key newValue = []) :
    s.exec (.apply key newValue) =
      (s.touch (.apply key newValue), some (s.globalVersion + 1, [])) := by
  simp [exec, apply, h, touch]

theorem exec_delete_absent (h : s.get key = none) : s.exec (.delete key) = (s, none) := by
  rw [get] at h
  simp [exec, delete, h]

theorem exec_cases (s : StateStore) (c : Call) : (∃ entry, s.recordOf c = some entry) ∨
    (∃ key newValue, c = .apply key newValue ∧ s.opsFor key newValue = []) ∨
    ∃ key, c = .delete key ∧ s.get key = none := by
  cases c with
  | apply key newValue =>
    by_cases h : s.opsFor key newValue = []
    · exact .inr (.inl ⟨key, newValue, rfl, h⟩)
    · exact .inl ⟨_, if_neg h⟩
  | delete key =>
    by_cases h : s.get key = none
    · exact .inr (.inr ⟨key, rfl, h⟩)
    · exact .inl ⟨_, if_neg h⟩

theorem opsFor_eq_nil_iff {newValue : Value} :
    s.opsFor key newValue = [] ↔ ∃ e, s.get key = some e ∧ e.value = newValue := by
  rw [opsFor, get]
  cases s.entries.get? key with
  | none => simp
  | some => simp [diff_eq_nil_iff]

theorem recordOf_eq_some (h : s.recordOf c = some entry) :
    entry.version = s.globalVersion + 1 ∧ entry.key = c.key ∧ entry.ops ≠ [] ∧
      entry.value = c.value.getD .null := by
  cases c with
  | apply key newValue =>
    by_cases hops : s.opsFor key newValue = []
    · simp [recordOf, hops] at h
    · rw [recordOf, if_neg hops, some.injEq] at h
      rw [← h]
      exact ⟨rfl, rfl, hops, rfl⟩
  | delete key =>
    by_cases hget : s.get key = none
    · simp [recordOf, hget] at h
    · rw [recordOf, if_neg hget, some.injEq] at h
      rw [← h]
      exact ⟨rfl, rfl, cons_ne_nil _ _, rfl⟩

theorem get_touch (c : Call) (key : String) : (s.touch c).get key =
      if key = c.key then c.value.map (StateEntry.mk (s.globalVersion + 1)) else s.get key := by
  cases c with
  | apply => exact get?_insert ..
  | delete => exact get?_erase ..

theorem entries_exec (c : Call) : (s.exec c).1.entries = (s.touch c).entries := by
  rcases exec_cases s c with ⟨_, h⟩ | ⟨key, _, rfl, h⟩ | ⟨key, rfl, h⟩
  · rw [exec_of_record h, entries_persist]
    rfl
  · rw [exec_apply_same h]
  · rw [exec_delete_absent h]
    apply ext_get?
    intro k
    have hk := get_touch (s := s) (.delete key) k
    rw [get] at hk
    rw [hk]
    split_ifs with he
    · rw [he]
      exact h
    · rfl

theorem get_exec (c : Call) (key : String) : (s.exec c).1.get key = (s.touch c).get key := by
  rw [get, entries_exec, get]

theorem records_exec_of_none (h : s.recordOf c = none) : (s.exec c).1.records = s.records := by
  rcases exec_cases s c with ⟨_, he⟩ | ⟨key, _, rfl, he⟩ | ⟨key, rfl, he⟩
  · simp [h] at he
  · rw [exec_apply_same he]
    rfl
  · rw [exec_delete_absent he]

theorem records_exec_of_record (hplog : s.plog = some plog) (h : s.recordOf c = some entry) :
    (s.exec c).1.records =
      if s.compactsOn c then (s.exec c).1.snapshot else s.records ++ [entry] := by
  have hp : ((s.touch c).logDelta entry.key entry.version entry.ops).plog = s.plog := by
    cases c <;> rfl
  have hsnap : (s.exec c).1.snapshot = (s.touch c).snapshot := by
    rw [snapshot, entries_exec, snapshot]
  have hneeds : (((s.touch c).logDelta entry.key entry.version entry.ops).writeLog
      entry).needsCompact = s.compactsOn c := by
    rw [compactsOn, h, any_some, needsCompact, needsCompact, writeLog, writeLog, hp]
  have hrec : ((s.touch c).logDelta entry.key entry.version entry.ops).records = s.records := by
    rw [records, hp, records]
  rw [hsnap, exec_of_record h, records_persist (hp.trans hplog), hneeds, hrec]
  rfl

theorem globalVersion_exec (c : Call) :
    (s.exec c).1.globalVersion = ((s.exec c).2.map Prod.fst).getD s.globalVersion := by
  rcases exec_cases s c with ⟨_, h⟩ | ⟨key, _, rfl, h⟩ | ⟨key, rfl, h⟩
  · rw [exec_of_record h, globalVersion_persist, (recordOf_eq_some h).1]
    cases c <;> rfl
  · rw [exec_apply_same h]
    rfl
  · rw [exec_delete_absent h]
    rfl

variable {ops : List DeltaOp}

theorem version_exec {version : ℕ} (h : (s.exec c).2 = some (version, ops)) :
    version = s.globalVersion + 1 := by
  rcases exec_cases s c with ⟨_, he⟩ | ⟨key, _, rfl, he⟩ | ⟨key, rfl, he⟩
  · rw [exec_of_record he, some.injEq, Prod.mk.injEq] at h
    rw [← h.1, (recordOf_eq_some he).1]
  · rw [exec_apply_same he, some.injEq, Prod.mk.injEq] at h
    exact h.1.symm
  · simp [exec_delete_absent he] at h

def stepOps : Option Value → Option Value → List DeltaOp
  | some old, some new => diff old new
  | none, some new => [DeltaOp.add "/" new]
  | some _, none => [DeltaOp.remove "/"]
  | none, none => []

theorem opsFor_eq_stepOps (s : StateStore) (key : String) (newValue : Value) :
    s.opsFor key newValue = stepOps ((s.get key).map StateEntry.value) (some newValue) := by
  rw [opsFor, StateStore.get]
  cases s.entries.get? key <;> rfl

def opsOf (s : StateStore) (c : Call) : List DeltaOp := ((s.exec c).2.map Prod.snd).getD []

theorem opsOf_eq_stepOps (s : StateStore) (c : Call) :
    s.opsOf c = stepOps ((s.get c.key).map StateEntry.value) c.value := by
  cases c with
  | apply key =>
    simp only [opsOf, exec, apply, map_some, getD_some, opsFor, Call.key, Call.value,
      StateStore.get]
    cases s.entries.get? key <;> rfl
  | delete key =>
    simp only [opsOf, exec, delete, Call.key, Call.value, StateStore.get]
    cases s.entries.get? key <;> rfl

theorem content_exec (s : StateStore) (c : Call) (key : String) :
    ((s.exec c).1.get key).map StateEntry.value =
      if key = c.key then c.value else (s.get key).map StateEntry.value := by
  rw [get_exec, get_touch]
  split_ifs
  · simp [Function.comp_def]
  · rfl

theorem content_exec_of_opsOf {s : StateStore} (hops : s.opsOf call = []) (key : String) :
    ((s.exec call).1.get key).map StateEntry.value = (s.get key).map StateEntry.value := by
  rw [content_exec]
  split_ifs with hk
  · subst hk
    rw [opsOf_eq_stepOps] at hops
    cases hold : (s.get call.key).map StateEntry.value with
    | none =>
      rw [hold] at hops
      cases hnew : call.value with
      | none => rfl
      | some => rw [hnew] at hops; cases hops
    | some old =>
      rw [hold] at hops
      cases hnew : call.value with
      | none => rw [hnew] at hops; cases hops
      | some new =>
        rw [hnew] at hops
        exact congrArg some ((diff_eq_nil_iff old new).mp hops).symm
  · rfl

theorem opsOf_of_result {s : StateStore} {version : ℕ}
    (h : (s.exec call).2 = some (version, ops)) : s.opsOf call = ops := by
  rw [opsOf, h]
  rfl

theorem content_exec_of_quiet {s : StateStore}
    (h : (s.exec call).2 = none ∨ ∃ version, (s.exec call).2 = some (version, [])) (key : String) :
    ((s.exec call).1.get key).map StateEntry.value = (s.get key).map StateEntry.value := by
  apply content_exec_of_opsOf
  rcases h with h | ⟨version, h⟩
  · rw [opsOf, h]
    rfl
  · exact opsOf_of_result h

theorem globalVersion_le_exec (s : StateStore) (call : Call) :
    s.globalVersion ≤ (s.exec call).1.globalVersion := by
  rw [globalVersion_exec]
  cases hresult : (s.exec call).2 with
  | none => exact le_refl _
  | some =>
    rw [map_some, getD_some, version_exec hresult]
    omega

end Calls

end StateStore
end Sodp
