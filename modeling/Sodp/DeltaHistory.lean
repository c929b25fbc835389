import Sodp.StoreVersions

/-!
# What a replay can miss

Two things take deltas away from what `deltasSince` filters: the bound of the log, and a compaction
followed by a restart. A ledger keeps every delta issued for one key, those still recorded on disk
and those that a log without a bound would hold in memory.
-/

namespace Sodp.StateStore
open Delta StampedLog DeltaLog List Option

def deltaOf (key : String) (s : StateStore) (c : Call) : List (ℕ × List DeltaOp) :=
  if c.key = key then (s.exec c).2.toList.filter fun d => d.2 ≠ [] else []

structure Ledger where
  issued : List (ℕ × List DeltaOp)
  onDisk : List (ℕ × List DeltaOp)
  inMemory : List (ℕ × List DeltaOp)

def Ledger.record (key : String) (s : StateStore) (l : Ledger) : StoreEvent → Ledger
  | .call c =>
    { issued := l.issued ++ s.deltaOf key c
      onDisk := if s.compactsOn c then [] else l.onDisk ++ s.deltaOf key c
      inMemory := l.inMemory ++ s.deltaOf key c }
  | .compact => { l with onDisk := [] }
  | .reopen => { l with inMemory := l.onDisk }

def ledgerFrom (key : String) : StateStore → Ledger → List StoreEvent → Ledger
  | _, l, [] => l
  | s, l, event :: events => ledgerFrom key (s.handle event).1 (l.record key s event) events

def ledger (key : String) (events : List StoreEvent) : Ledger :=
  ledgerFrom key (openDir .empty) ⟨[], [], []⟩ events

structure Kept (key : String) (s : StateStore) (l : Ledger) : Prop where
  held : s.log.held key = l.inMemory.rtake maxDeltaLogEntriesPerKey
  disk : deltasIn key (sortByVersion s.records) = l.onDisk
  disk_suffix : l.onDisk <:+ l.inMemory
  memory_suffix : l.inMemory <:+ l.issued
  sorted : l.inMemory.Pairwise fun a b => a.1 < b.1
  le : ∀ d ∈ l.inMemory, d.1 ≤ s.globalVersion

section Step
variable {key : String} {s : StateStore} {l : Ledger}

variable {c : Call} {entry : LogEntry}

theorem deltaOf_of_record (h : s.recordOf c = some entry) :
    deltaOf key s c = if entry.key = key then [(entry.version, entry.ops)] else [] := by
  obtain ⟨-, hkey, hops, -⟩ := recordOf_eq_some h
  rw [deltaOf, exec_of_record h, hkey]
  simp [hops]

theorem deltaOf_of_none (h : s.recordOf c = none) : deltaOf key s c = [] := by
  rcases exec_cases s c with ⟨_, he⟩ | ⟨k, _, rfl, he⟩ | ⟨k, rfl, he⟩
  · simp [h] at he
  · simp [deltaOf, exec_apply_same he]
  · simp [deltaOf, exec_delete_absent he]

theorem deltasIn_append (records : List LogEntry) (entry : LogEntry) (h : entry.ops ≠ []) :
    deltasIn key (records ++ [entry]) =
      deltasIn key records ++ if entry.key = key then [(entry.version, entry.ops)] else [] := by
  by_cases hk : entry.key = key <;> simp [deltasIn, h, hk]

theorem deltasIn_snapshot (s : StateStore) (key : String) :
    deltasIn key (sortByVersion s.snapshot) = [] := by
  rw [deltasIn, map_eq_nil_iff, filter_eq_nil_iff]
  intro entry hentry
  obtain ⟨e, -, heq⟩ := mem_snapshot.mp ((mem_byStamp LogEntry.version).mp hentry)
  rw [heq]
  simp

theorem held_exec_of_record (h : s.recordOf c = some entry) : (s.exec c).1.log.held key =
      if entry.key = key then
        (s.log.held key ++ [(entry.version, entry.ops)]).rtake maxDeltaLogEntriesPerKey
      else s.log.held key := by
  have hlog : (s.exec c).1.log = s.log.append entry.key entry.version entry.ops := by
    rw [exec_of_record h, log_persist]
    cases c <;> rfl
  rw [hlog]
  split_ifs with hk
  · rw [hk, held_append_self]
  · exact held_append_of_ne _ (Ne.symm hk) _ _

theorem exec_of_none (h : s.recordOf c = none) :
    (s.exec c).1.log = s.log ∧ s.globalVersion ≤ (s.exec c).1.globalVersion := by
  rcases exec_cases s c with ⟨_, he⟩ | ⟨k, _, rfl, he⟩ | ⟨k, rfl, he⟩
  · simp [h] at he
  · rw [exec_apply_same he]
    exact ⟨rfl, Nat.le_succ _⟩
  · rw [exec_delete_absent he]
    exact ⟨rfl, le_refl _⟩

theorem Kept.exec_record (hp : Persisted s) (h : Kept key s l) (hrec : s.recordOf c = some entry) :
    Kept key (s.exec c).1 (l.record key s (.call c)) := by
  obtain ⟨_, hplog⟩ := hp.persistent
  obtain ⟨hver, -, hops, -⟩ := recordOf_eq_some hrec
  have hglobal := globalVersion_exec_of_record hrec
  have hnew : ∀ d ∈ deltaOf key s c, d.1 = s.globalVersion + 1 := by
    intro d hd
    rw [deltaOf_of_record hrec] at hd
    split_ifs at hd with hk
    · rw [mem_singleton.mp hd]
      exact hver
    · exact absurd hd not_mem_nil
  refine ⟨?_, ?_, ?_, ?_, ?_, ?_⟩
  · change _ = (l.inMemory ++ deltaOf key s c).rtake _
    rw [held_exec_of_record hrec, h.held, deltaOf_of_record hrec]
    split_ifs
    · rw [rtake_append_rtake]
    · rw [append_nil]
  · rw [records_exec_of_record hplog hrec, Ledger.record]
    split_ifs with hcompact
    · exact deltasIn_snapshot _ key
    · have hsort : sortByVersion (s.records ++ [entry]) = sortByVersion s.records ++ [entry] := by
        refine byStamp_append_newest LogEntry.version fun r hr => ?_
        have hr := hp.record_le r hr
        omega
      rw [hsort, deltasIn_append _ _ hops, h.disk, deltaOf_of_record hrec]
  · rw [Ledger.record]
    split_ifs
    · exact nil_suffix
    · obtain ⟨t, ht⟩ := h.disk_suffix
      exact ⟨t, by simp only [← ht, append_assoc]⟩
  · obtain ⟨t, ht⟩ := h.memory_suffix
    exact ⟨t, by simp only [Ledger.record, ← ht, append_assoc]⟩
  · rw [Ledger.record, pairwise_append]
    refine ⟨h.sorted, ?_, fun a ha b hb => ?_⟩
    · rw [deltaOf_of_record hrec]
      split_ifs <;> simp
    · have ha := h.le a ha
      have hb := hnew b hb
      omega
  · intro d hd
    rw [hglobal]
    rcases mem_append.mp hd with hd | hd
    · exact Nat.le_succ_of_le (h.le d hd)
    · exact (hnew d hd).le

theorem Kept.exec (hp : Persisted s) (h : Kept key s l) (c : Call) :
    Kept key (s.exec c).1 (l.record key s (.call c)) := by
  cases hrec : s.recordOf c with
  | some => exact h.exec_record hp hrec
  | none =>
    have hsame : l.record key s (.call c) = l := by
      simp [Ledger.record, deltaOf_of_none hrec, compactsOn, hrec]
    obtain ⟨hlog, hglobal⟩ := exec_of_none hrec
    rw [hsame]
    refine ⟨hlog ▸ h.held, ?_, h.disk_suffix, h.memory_suffix, h.sorted, fun d hd => ?_⟩
    · rw [records_exec_of_none hrec]
      exact h.disk
    · exact (h.le d hd).trans hglobal

theorem Kept.compact (hp : Persisted s) (h : Kept key s l) :
    Kept key s.compactPlog (l.record key s .compact) := by
  obtain ⟨_, hplog⟩ := hp.persistent
  refine ⟨h.held, ?_, nil_suffix, h.memory_suffix, h.sorted, h.le⟩
  rw [records_compactPlog hplog]
  exact deltasIn_snapshot s key

theorem Kept.reopen (h : Kept key s l) : Kept key s.reopen (l.record key s .reopen) := by
  refine ⟨?_, ?_, suffix_refl _, h.disk_suffix.trans h.memory_suffix,
    h.sorted.sublist h.disk_suffix.sublist, fun d hd => ?_⟩
  · have hrecords := records_reopen s
    rw [StateStore.reopen, records_openDir] at hrecords
    rw [StateStore.reopen, held_openDir, hrecords, h.disk]
    rfl
  · rw [records_reopen]
    exact h.disk
  · rw [globalVersion_reopen]
    change d ∈ l.onDisk at hd
    rw [← h.disk, deltasIn, List.mem_map] at hd
    obtain ⟨_, hentry, rfl⟩ := hd
    exact le_newest LogEntry.version ((mem_byStamp LogEntry.version).mp (mem_filter.mp hentry).1)

theorem Kept.handle (hp : Persisted s) (h : Kept key s l) (event : StoreEvent) :
    Kept key (s.handle event).1 (l.record key s event) := by
  cases event with
  | call c => exact h.exec hp c
  | compact => exact h.compact hp
  | reopen => exact h.reopen

theorem Kept.handleAll (hp : Persisted s) (h : Kept key s l) (events : List StoreEvent) :
    Kept key (s.handleAll events) (ledgerFrom key s l events) := by
  induction events generalizing s l with
  | nil => exact h
  | cons event events ih => exact ih (hp.handle event) (h.handle hp event)

theorem kept_ledger (key : String) (events : List StoreEvent) :
    Kept key ((openDir .empty).handleAll events) (ledger key events) := by
  refine Kept.handleAll persisted_empty ⟨?_, rfl, ?_, ?_, List.Pairwise.nil, ?_⟩ events
  · rw [rtake_nil]
    rfl
  · exact suffix_refl _
  · exact suffix_refl _
  · intro d hd
    exact absurd hd not_mem_nil

end Step

section Replay
variable {key : String} {s : StateStore} {l : Ledger}

theorem Kept.deltasSince_eq (h : Kept key s l) (sinceVersion : ℕ) : s.deltasSince key sinceVersion =
      (l.inMemory.filter fun d => sinceVersion < d.1).rtake maxDeltaLogEntriesPerKey := by
  rw [deltasSince, since_eq_filter, h.held, filter_rtake Prod.fst sinceVersion _ h.sorted]

theorem Kept.complete_or_empty_iff (h : Kept key s l) (sinceVersion : ℕ) :
    (s.deltasSince key sinceVersion = (l.issued.filter fun d => sinceVersion < d.1) ∧
        (s.deltasSince key sinceVersion).Pairwise (fun a b => a.1 < b.1) ∨
      s.deltasSince key sinceVersion = []) ↔
    (l.inMemory.filter fun d => sinceVersion < d.1) = [] ∨
      (l.inMemory.filter fun d => sinceVersion < d.1) =
        (l.issued.filter fun d => sinceVersion < d.1) ∧
      (l.issued.filter fun d => sinceVersion < d.1).length ≤ maxDeltaLogEntriesPerKey := by
  have hsub : (l.inMemory.filter fun d => sinceVersion < d.1) <:+
      l.issued.filter fun d => sinceVersion < d.1 := by
    obtain ⟨t, ht⟩ := h.memory_suffix
    rw [← ht, filter_append]
    exact suffix_append _ _
  have hsorted := h.sorted.filter fun d => sinceVersion < d.1
  rw [h.deltasSince_eq]
  generalize (l.inMemory.filter fun d => sinceVersion < d.1) = newer at hsub hsorted
  generalize (l.issued.filter fun d => sinceVersion < d.1) = all at hsub
  have hlen := length_rtake maxDeltaLogEntriesPerKey newer
  constructor
  · rintro (⟨heq, -⟩ | hnil)
    · right
      rw [heq] at hlen
      have hle := hsub.length_le
      have hall : newer = all := hsub.eq_of_length (by omega)
      exact ⟨hall, by omega⟩
    · left
      rw [hnil, length_nil] at hlen
      have hpos : 0 < maxDeltaLogEntriesPerKey := by decide
      exact length_eq_zero_iff.mp (by omega)
  · rintro (hnil | ⟨heq, hle⟩)
    · right
      rw [hnil, rtake_nil]
    · left
      rw [rtake_of_length_le (by rw [heq]; exact hle)]
      exact ⟨heq, hsorted⟩

def countTo (n : ℕ) : List StoreEvent :=
  (List.range n).map fun i => .call (.apply "k" (.number (.int i)))

theorem ledgerFrom_append (key : String) (s : StateStore) (l : Ledger)
    (before after : List StoreEvent) : ledgerFrom key s l (before ++ after) =
      ledgerFrom key (s.handleAll before) (ledgerFrom key s l before) after := by
  induction before generalizing s l with
  | nil => rfl
  | cons event before ih => exact ih _ _

theorem handleAll_append (s : StateStore) (before after : List StoreEvent) :
    s.handleAll (before ++ after) = (s.handleAll before).handleAll after :=
  foldl_append

theorem countTo_issues (n : ℕ) : ((openDir .empty).handleAll (countTo n)).globalVersion = n ∧
    (∀ e, ((openDir .empty).handleAll (countTo n)).get "k" = some e →
      ∃ i < n, e.value = .number (.int i)) ∧
    (ledger "k" (countTo n)).inMemory = (ledger "k" (countTo n)).issued ∧
    ((ledger "k" (countTo n)).issued.filter fun d => 0 < d.1).length = n := by
  induction n with
  | zero =>
    refine ⟨rfl, fun e he => ?_, rfl, rfl⟩
    change (openDir .empty).get "k" = some e at he
    simp [get_openDir_empty] at he
  | succ n ih =>
    obtain ⟨hglobal, hget, hmem, hlen⟩ := ih
    have hsplit : countTo (n + 1) = countTo n ++ [.call (.apply "k" (.number (.int n)))] := by
      simp [countTo, range_succ]
    have hledger := ledgerFrom_append "k" (openDir .empty) ⟨[], [], []⟩ (countTo n)
      [.call (.apply "k" (.number (.int n)))]
    rw [hsplit, handleAll_append, ledger, hledger, ← ledger]
    generalize ((openDir .empty).handleAll (countTo n)) = s at hglobal hget
    generalize ledger "k" (countTo n) = l at hmem hlen
    change (s.exec (.apply "k" (.number (.int n)))).1.globalVersion = n + 1 ∧
      (∀ e, (s.exec (.apply "k" (.number (.int n)))).1.get "k" = some e → _) ∧ _
    have hops : s.opsFor "k" (.number (.int n)) ≠ [] := by
      intro hnil
      obtain ⟨e, he, hval⟩ := opsFor_eq_nil_iff.mp hnil
      obtain ⟨i, _, hvi⟩ := hget e he
      rw [hval, Value.number.injEq, Number.int.injEq] at hvi
      omega
    have hrec : s.recordOf (.apply "k" (.number (.int n))) = some _ := if_neg hops
    refine ⟨?_, fun e he => ⟨n, Nat.lt_succ_self n, ?_⟩, ?_, ?_⟩
    · rw [globalVersion_exec_of_record hrec, hglobal]
    · rw [get_exec, get_touch, Call.key, if_pos rfl] at he
      obtain ⟨v, hv, rfl⟩ := map_eq_some_iff.mp he
      exact (some.inj hv).symm
    · simp [ledgerFrom, Ledger.record, hmem]
    · simp only [ledgerFrom, Ledger.record, deltaOf_of_record hrec, filter_append,
        length_append, hlen]
      simp

end Replay

end Sodp.StateStore
