import Sodp.StateStore

/-!
# Recovery of a persistent store

The latest record of a present key carries its value (`Persisted`). The log is less reliable about
absent keys, because a deletion is recorded with the value null and recovery inserts every record it
reads.
-/

namespace Sodp.StateStore
open Delta StampedLog List Option

inductive StoreEvent where
  | call (c : Call)
  | compact
  | reopen

def reopen (s : StateStore) : StateStore := openDir ((s.plog.map SegmentedLog.logDir).getD .empty)

def handle (s : StateStore) : StoreEvent → StateStore × Option (ℕ × List DeltaOp)
  | .call c => s.exec c
  | .compact => (s.compactPlog, none)
  | .reopen => (s.reopen, none)

def latestRecord (s : StateStore) (key : String) : Option LogEntry :=
  latest LogEntry.key LogEntry.version key s.records

structure Persisted (s : StateStore) : Prop where
  persistent : ∃ plog, s.plog = some plog
  nodup : (s.records.map LogEntry.version).Nodup
  record_le : ∀ entry ∈ s.records, entry.version ≤ s.globalVersion
  entry_le : ∀ k e, s.get k = some e → e.version ≤ s.globalVersion
  entry_inj : ∀ k j e f, s.get k = some e → s.get j = some f → e.version = f.version → k = j
  present : ∀ k e, s.get k = some e → (s.latestRecord k).map LogEntry.value = some e.value
  absent : ∀ k, s.get k = none → (s.latestRecord k).map LogEntry.value = none ∨
    (s.latestRecord k).map LogEntry.value = some .null

section Reopen
variable {s : StateStore}

theorem records_reopen (s : StateStore) : s.reopen.records = s.records := by
  rw [reopen, records_openDir, records]
  cases s.plog <;> rfl

theorem get_reopen (s : StateStore) (key : String) :
    s.reopen.get key = (s.latestRecord key).map fun entry => ⟨entry.version, entry.value⟩ := by
  have h := records_reopen s
  rw [reopen, records_openDir] at h
  rw [reopen, get_openDir, h, latestRecord]

theorem globalVersion_reopen (s : StateStore) :
    s.reopen.globalVersion = newest LogEntry.version s.records := by
  have h := records_reopen s
  rw [reopen, records_openDir] at h
  rw [reopen, globalVersion_openDir, h]

theorem mem_snapshot {entry : LogEntry} : entry ∈ s.snapshot ↔
      ∃ e, s.get entry.key = some e ∧ entry = ⟨e.version, entry.key, [], e.value⟩ := by
  rw [snapshot, List.mem_map]
  constructor
  · intro h
    obtain ⟨⟨k, e⟩, hmem, rfl⟩ := h
    exact ⟨e, (OrderedMap.mem_toList _ k e).mp hmem, rfl⟩
  · intro h
    obtain ⟨e, hget, heq⟩ := h
    exact ⟨(entry.key, e), (OrderedMap.mem_toList _ _ e).mpr hget, heq.symm⟩

theorem snapshot_keys_nodup (s : StateStore) : (s.snapshot.map LogEntry.key).Nodup := by
  have hkeys : s.snapshot.map LogEntry.key = s.entries.keys := by
    rw [snapshot, List.map_map, ← OrderedMap.map_fst_toList]
    rfl
  rw [hkeys]
  exact s.entries.sorted.imp ne_of_lt

theorem latest_snapshot (s : StateStore) (key : String) :
    latest LogEntry.key LogEntry.version key s.snapshot =
      (s.get key).map fun e => ⟨e.version, key, [], e.value⟩ := by
  cases hget : s.get key with
  | none =>
    rw [map_none, latest_eq_none_iff]
    intro entry hentry hkey
    obtain ⟨e, he, -⟩ := mem_snapshot.mp hentry
    rw [hkey, hget] at he
    simp at he
  | some e =>
    have hmem : (⟨e.version, key, [], e.value⟩ : LogEntry) ∈ s.snapshot :=
      mem_snapshot.mpr ⟨e, hget, rfl⟩
    exact latest_of_nodup LogEntry.key LogEntry.version s.snapshot_keys_nodup hmem

end Reopen

section Invariant
variable {s : StateStore}

theorem persisted_of_snapshot (hplog : ∃ plog, s.plog = some plog)
    (hrecords : s.records = s.snapshot)
    (hle : ∀ k e, s.get k = some e → e.version ≤ s.globalVersion)
    (hinj : ∀ k j e f, s.get k = some e → s.get j = some f → e.version = f.version → k = j) :
    Persisted s := by
  have hlatest : ∀ k, s.latestRecord k = (s.get k).map fun e => ⟨e.version, k, [], e.value⟩ := by
    intro k
    rw [latestRecord, hrecords, latest_snapshot]
  refine ⟨hplog, ?_, ?_, hle, hinj, ?_, ?_⟩
  · rw [hrecords]
    refine List.Nodup.map_on ?_ (s.snapshot_keys_nodup.of_map LogEntry.key)
    intro a ha b hb hab
    obtain ⟨e, he, hae⟩ := mem_snapshot.mp ha
    obtain ⟨f, hf, hbf⟩ := mem_snapshot.mp hb
    have hkey : a.key = b.key := by
      rw [hae, hbf] at hab
      exact hinj _ _ e f he hf hab
    rw [hkey, hf, some.injEq] at he
    rw [hae, hbf, hkey, he]
  · intro entry hentry
    rw [hrecords] at hentry
    obtain ⟨e, he, heq⟩ := mem_snapshot.mp hentry
    rw [heq]
    exact hle _ e he
  · intro k e he
    rw [hlatest, he]
    rfl
  · intro k hk
    rw [hlatest, hk]
    exact .inl rfl

theorem Persisted.compactPlog (h : Persisted s) : Persisted s.compactPlog := by
  obtain ⟨plog, hplog⟩ := h.persistent
  refine persisted_of_snapshot ⟨plog.compact s.snapshot, ?_⟩ ?_ h.entry_le h.entry_inj
  · rw [StateStore.compactPlog, hplog]
    rfl
  · exact records_compactPlog hplog

theorem Persisted.reopen (h : Persisted s) : Persisted s.reopen := by
  have hlatest : ∀ k, s.reopen.latestRecord k = s.latestRecord k := by
    intro k
    rw [latestRecord, records_reopen, latestRecord]
  have hentry : ∀ k e, s.reopen.get k = some e →
      ∃ entry ∈ s.records, entry.key = k ∧ entry.version = e.version := by
    intro k e he
    rw [get_reopen, map_eq_some_iff] at he
    obtain ⟨entry, hlast, rfl⟩ := he
    obtain ⟨hmem, hkey⟩ := latest_eq_some LogEntry.key LogEntry.version hlast
    exact ⟨entry, hmem, hkey, rfl⟩
  refine ⟨⟨_, rfl⟩, ?_, ?_, ?_, ?_, ?_, ?_⟩
  · rw [records_reopen]
    exact h.nodup
  · intro entry hmem
    rw [records_reopen] at hmem
    rw [globalVersion_reopen]
    exact le_newest LogEntry.version hmem
  · intro k e he
    obtain ⟨entry, hmem, -, hver⟩ := hentry k e he
    rw [globalVersion_reopen, ← hver]
    exact le_newest LogEntry.version hmem
  · intro k j e f he hf hef
    obtain ⟨a, ha, rfl, hae⟩ := hentry k e he
    obtain ⟨b, hb, rfl, hbf⟩ := hentry j f hf
    rw [inj_on_of_nodup_map h.nodup ha hb (by rw [hae, hbf, hef])]
  · intro k e he
    rw [get_reopen, map_eq_some_iff] at he
    obtain ⟨entry, hlast, rfl⟩ := he
    rw [hlatest, hlast]
    rfl
  · intro k hk
    rw [get_reopen, map_eq_none_iff] at hk
    rw [hlatest, hk]
    exact .inl rfl

variable {c : Call} {entry : LogEntry}

theorem plog_exec (h : ∃ plog, s.plog = some plog) : ∃ plog, (s.exec c).1.plog = some plog := by
  obtain ⟨plog, hplog⟩ := h
  rcases exec_cases s c with ⟨entry, h⟩ | ⟨key, _, rfl, h⟩ | ⟨key, rfl, h⟩
  · have hp : ((s.touch c).logDelta entry.key entry.version entry.ops).plog = some plog := by
      cases c <;> exact hplog
    rw [exec_of_record h, persist]
    split_ifs
    · exact ⟨_, by rw [StateStore.compactPlog, writeLog, hp]; rfl⟩
    · exact ⟨_, by rw [writeLog, hp]; rfl⟩
  · rw [exec_apply_same h]
    exact ⟨plog, hplog⟩
  · rw [exec_delete_absent h]
    exact ⟨plog, hplog⟩

theorem Persisted.entry_touch_le (h : Persisted s) (c : Call) :
    ∀ k e, (s.touch c).get k = some e → e.version ≤ s.globalVersion + 1 := by
  intro k e he
  rw [get_touch] at he
  split_ifs at he with hk
  · rw [map_eq_some_iff] at he
    obtain ⟨v, -, rfl⟩ := he
    exact le_refl _
  · exact Nat.le_succ_of_le (h.entry_le k e he)

theorem Persisted.entry_touch_inj (h : Persisted s) (c : Call) :
    ∀ k j e f, (s.touch c).get k = some e → (s.touch c).get j = some f →
      e.version = f.version → k = j := by
  have hnew : ∀ k e, (s.touch c).get k = some e → (k = c.key ∧ e.version = s.globalVersion + 1) ∨
      (s.get k = some e ∧ e.version ≤ s.globalVersion) := by
    intro k e he
    rw [get_touch] at he
    split_ifs at he with hk
    · rw [map_eq_some_iff] at he
      obtain ⟨v, -, rfl⟩ := he
      exact .inl ⟨hk, rfl⟩
    · exact .inr ⟨he, h.entry_le k e he⟩
  intro k j e f he hf hef
  rcases hnew k e he with ⟨rfl, hke⟩ | ⟨hk, hke⟩
  · rcases hnew j f hf with ⟨rfl, -⟩ | ⟨-, hjf⟩
    · rfl
    · omega
  · rcases hnew j f hf with ⟨-, hjf⟩ | ⟨hj, -⟩
    · omega
    · exact h.entry_inj k j e f hk hj hef

theorem globalVersion_exec_of_record (h : s.recordOf c = some entry) :
    (s.exec c).1.globalVersion = s.globalVersion + 1 := by
  rw [globalVersion_exec, exec_of_record h, ← (recordOf_eq_some h).1]
  rfl

section
variable (h : Persisted s)
include h

theorem latestRecord_append (hrec : s.recordOf c = some entry)
    (hcompact : s.compactsOn c = false) (key : String) :
    (s.exec c).1.latestRecord key = if key = c.key then some entry else s.latestRecord key := by
  obtain ⟨_, hplog⟩ := h.persistent
  obtain ⟨_, hkey, -, -⟩ := recordOf_eq_some hrec
  have hold : ∀ b ∈ s.records, b.version ≤ entry.version := by
    intro b hb
    have hb := h.record_le b hb
    omega
  rw [latestRecord, records_exec_of_record hplog hrec, hcompact]
  change latest LogEntry.key LogEntry.version key (s.records ++ [entry]) = _
  split_ifs with hk
  · rw [hk, ← hkey]
    exact latest_append_self LogEntry.key LogEntry.version hold
  · rw [← hkey] at hk
    exact latest_append_of_ne LogEntry.key LogEntry.version hold (Ne.symm hk)

theorem Persisted.exec_append (hrec : s.recordOf c = some entry)
    (hcompact : s.compactsOn c = false) : Persisted (s.exec c).1 := by
  obtain ⟨_, hplog⟩ := h.persistent
  obtain ⟨hver, -, -, hval⟩ := recordOf_eq_some hrec
  have hglobal := globalVersion_exec_of_record hrec
  have hrecords : (s.exec c).1.records = s.records ++ [entry] := by
    rw [records_exec_of_record hplog hrec, hcompact]
    rfl
  have hle := h.entry_touch_le c
  have hinj := h.entry_touch_inj c
  simp only [← get_exec, ← hglobal] at hle hinj
  refine ⟨plog_exec h.persistent, ?_, ?_, hle, hinj, ?_, ?_⟩
  · rw [hrecords, map_append, nodup_append]
    refine ⟨h.nodup, nodup_singleton _, fun a ha b hb => ?_⟩
    obtain ⟨r, hr, rfl⟩ := mem_map.mp ha
    rw [map_singleton, mem_singleton] at hb
    have hr := h.record_le r hr
    omega
  · intro r hr
    rw [hrecords, mem_append, mem_singleton] at hr
    rw [hglobal]
    rcases hr with hr | rfl
    · exact Nat.le_succ_of_le (h.record_le r hr)
    · exact hver.le
  · intro k e he
    rw [get_exec, get_touch] at he
    rw [latestRecord_append h hrec hcompact]
    split_ifs at he ⊢ with hk
    · obtain ⟨v, hv, rfl⟩ := map_eq_some_iff.mp he
      rw [map_some, hval, hv]
      rfl
    · exact h.present k e he
  · intro k hk
    rw [get_exec, get_touch] at hk
    rw [latestRecord_append h hrec hcompact]
    split_ifs at hk ⊢ with hck
    · right
      rw [map_some, hval, map_eq_none_iff.mp hk]
      rfl
    · exact h.absent k hk

theorem Persisted.exec_same {key : String} {newValue : Value}
    (hops : s.opsFor key newValue = []) : Persisted (s.exec (.apply key newValue)).1 := by
  have hrecords : (s.exec (.apply key newValue)).1.records = s.records := by
    rw [exec_apply_same hops]
    rfl
  have hlatest : ∀ k, (s.exec (.apply key newValue)).1.latestRecord k = s.latestRecord k := by
    intro k
    rw [latestRecord, hrecords, latestRecord]
  obtain ⟨old, hold, hsame⟩ := opsFor_eq_nil_iff.mp hops
  have hglobal : (s.exec (.apply key newValue)).1.globalVersion = s.globalVersion + 1 := by
    rw [exec_apply_same hops]
    rfl
  have hle := h.entry_touch_le (.apply key newValue)
  have hinj := h.entry_touch_inj (.apply key newValue)
  simp only [← get_exec, ← hglobal] at hle hinj
  refine ⟨plog_exec h.persistent, by rw [hrecords]; exact h.nodup, ?_, hle, hinj, ?_, ?_⟩
  · intro r hr
    rw [hrecords] at hr
    rw [hglobal]
    exact Nat.le_succ_of_le (h.record_le r hr)
  · intro k e he
    rw [get_exec, get_touch] at he
    rw [hlatest]
    split_ifs at he with hk
    · obtain ⟨v, hv, rfl⟩ := map_eq_some_iff.mp he
      rw [hk]
      change (s.latestRecord key).map LogEntry.value = some v
      rw [h.present key old hold, hsame]
      exact hv
    · exact h.present k e he
  · intro k hk
    rw [get_exec, get_touch] at hk
    rw [hlatest]
    split_ifs at hk with hck
    · simp [Call.value] at hk
    · exact h.absent k hk

theorem Persisted.exec (c : Call) : Persisted (s.exec c).1 := by
  rcases exec_cases s c with ⟨_, hrec⟩ | ⟨key, _, rfl, hops⟩ | ⟨key, rfl, habs⟩
  · cases hcompact : s.compactsOn c with
    | false => exact h.exec_append hrec hcompact
    | true =>
      obtain ⟨_, hplog⟩ := h.persistent
      have hrecords := records_exec_of_record hplog hrec
      rw [hcompact, if_pos rfl] at hrecords
      have hle := h.entry_touch_le c
      have hinj := h.entry_touch_inj c
      simp only [← get_exec, ← globalVersion_exec_of_record hrec] at hle hinj
      exact persisted_of_snapshot (plog_exec h.persistent) hrecords hle hinj
  · exact h.exec_same hops
  · rw [exec_delete_absent habs]
    exact h

theorem Persisted.handle (event : StoreEvent) : Persisted (s.handle event).1 := by
  cases event with
  | call c => exact h.exec c
  | compact => exact h.compactPlog
  | reopen => exact h.reopen

end

end Invariant

section Restart
variable {s : StateStore}

theorem get_openDir_empty (key : String) : (openDir .empty).get key = none := by
  rw [get_openDir]
  rfl

theorem persisted_empty : Persisted (openDir .empty) := by
  have hget : ∀ k e, (openDir .empty).get k ≠ some e := by
    intro k e
    rw [get_openDir_empty]
    simp
  refine ⟨⟨_, rfl⟩, nodup_nil, ?_, ?_, ?_, ?_, ?_⟩
  · intro entry h
    exact absurd h not_mem_nil
  · intro k e he
    exact absurd he (hget k e)
  · intro k j e f he
    exact absurd he (hget k e)
  · intro k e he
    exact absurd he (hget k e)
  · intro k _
    exact .inl rfl

theorem Persisted.reopen_faithful_iff (h : Persisted s) :
    (∀ k, (s.reopen.get k).map StateEntry.value = (s.get k).map StateEntry.value) ↔
      ∀ k, s.get k = none → s.latestRecord k = none := by
  have hreopen : ∀ k, (s.reopen.get k).map StateEntry.value =
      (s.latestRecord k).map LogEntry.value := by
    intro k
    rw [get_reopen, Option.map_map]
    rfl
  constructor
  · intro hall k hk
    have hkey := hall k
    rw [hreopen, hk, map_none, map_eq_none_iff] at hkey
    exact hkey
  · intro hnone k
    rw [hreopen]
    cases hget : s.get k with
    | none =>
      rw [hnone k hget]
      rfl
    | some e => exact h.present k e hget

def NoCompaction : StateStore → List Call → Prop
  | _, [] => True
  | s, c :: calls => s.compactsOn c = false ∧ NoCompaction (s.exec c).1 calls

theorem get_execAll (s : StateStore) (calls : List Call) (key : String) :
    ((s.execAll calls).get key).map StateEntry.value = match lastOf Call.key key calls with
      | none => (s.get key).map StateEntry.value
      | some c => c.value := by
  induction calls using List.reverseRecOn with
  | nil => rfl
  | append_singleton calls c ih =>
    have hrun : s.execAll (calls ++ [c]) = ((s.execAll calls).exec c).1 := by
      simp [execAll, foldl_append]
    rw [hrun, get_exec, get_touch]
    split_ifs with hk
    · rw [hk, lastOf_append_self, Option.map_map]
      simp [Function.comp_def]
    · rw [lastOf_append_of_ne Call.key calls (Ne.symm hk), ih]

theorem Persisted.get_eq_none (h : Persisted s) {key : String} (hnone : s.latestRecord key = none) :
    s.get key = none := by
  cases hget : s.get key with
  | none => rfl
  | some e =>
    have hpresent := h.present key e hget
    rw [hnone] at hpresent
    simp at hpresent

theorem latestRecord_exec_eq_none_iff (h : Persisted s) {c : Call} (hc : s.compactsOn c = false)
    (key : String) : (s.exec c).1.latestRecord key = none ↔
      s.latestRecord key = none ∧ ∀ v, c ≠ .apply key v := by
  cases hrec : s.recordOf c with
  | some =>
    rw [latestRecord_append h hrec hc]
    split_ifs with hk
    · constructor
      · intro hsome
        simp at hsome
      · rintro ⟨hnone, happly⟩
        cases c with
        | apply k v => exact absurd (by rw [hk]; rfl) (happly v)
        | delete k =>
          obtain rfl : key = k := hk
          have habsent := h.get_eq_none hnone
          rw [recordOf, if_pos habsent] at hrec
          simp at hrec
    · refine ⟨fun hnone => ⟨hnone, fun v he => hk ?_⟩, And.left⟩
      rw [he]
      rfl
  | none =>
    rw [latestRecord, records_exec_of_none hrec, ← latestRecord]
    refine ⟨fun hnone => ⟨hnone, fun v he => ?_⟩, And.left⟩
    have hsame : s.opsFor key v = [] := by
      by_contra hops
      rw [he, recordOf, if_neg hops] at hrec
      simp at hrec
    obtain ⟨e, he, -⟩ := opsFor_eq_nil_iff.mp hsame
    rw [h.get_eq_none hnone] at he
    simp at he

theorem latestRecord_execAll_eq_none_iff (h : Persisted s) {calls : List Call}
    (hc : NoCompaction s calls) (key : String) : (s.execAll calls).latestRecord key = none ↔
      s.latestRecord key = none ∧ ∀ v, Call.apply key v ∉ calls := by
  induction calls generalizing s with
  | nil => simp [execAll]
  | cons c calls ih =>
    change (((s.exec c).1.execAll calls).latestRecord key = none) ↔ _
    rw [ih (h.exec c) hc.2, latestRecord_exec_eq_none_iff h hc.1]
    simp only [mem_cons, not_or, and_assoc, forall_and, ne_eq, eq_comm]

theorem Persisted.execAll (h : Persisted s) (calls : List Call) : Persisted (s.execAll calls) := by
  induction calls generalizing s with
  | nil => exact h
  | cons c calls ih => exact ih (h.exec c)

/-- A restart after a run without compaction restores every key exactly when the
last call on each key that was ever applied is an `apply`. -/
theorem reopen_restores_iff (calls : List Call) (h : NoCompaction (openDir .empty) calls) :
    (∀ k, (((openDir .empty).execAll calls).reopen.get k).map StateEntry.value =
        (((openDir .empty).execAll calls).get k).map StateEntry.value) ↔
      ∀ k v, Call.apply k v ∈ calls → ∃ w, lastOf Call.key k calls = some (.apply k w) := by
  rw [(persisted_empty.execAll calls).reopen_faithful_iff]
  refine forall_congr' fun k => ?_
  have hget := get_execAll (openDir .empty) calls k
  rw [latestRecord_execAll_eq_none_iff persisted_empty h]
  cases hlast : lastOf Call.key k calls with
  | none =>
    have hno : ∀ v, Call.apply k v ∉ calls :=
      fun v hv => (lastOf_eq_none_iff Call.key).mp hlast _ hv rfl
    exact ⟨fun _ v hv => absurd hv (hno v), fun _ _ => ⟨rfl, hno⟩⟩
  | some c =>
    rw [hlast] at hget
    cases c with
    | apply j w =>
      obtain rfl : j = k := (lastOf_eq_some Call.key hlast).2
      refine ⟨fun _ v _ => ⟨w, rfl⟩, fun _ hnone => ?_⟩
      rw [hnone] at hget
      simp [Call.value] at hget
    | delete =>
      have hnone : ((openDir .empty).execAll calls).get k = none := by
        rw [← map_eq_none_iff, hget]
        rfl
      refine ⟨fun hall v hv => absurd hv ((hall hnone).2 v), fun hall _ => ⟨rfl, fun v hv => ?_⟩⟩
      obtain ⟨w, hw⟩ := hall v hv
      simp at hw

theorem reopen_restores_recreated :
    NoCompaction (openDir .empty) [.apply "k" .null, .delete "k", .apply "k" (.bool true)] ∧
    ∀ k, (((openDir .empty).execAll
        [.apply "k" .null, .delete "k", .apply "k" (.bool true)]).reopen.get k).map
          StateEntry.value = (((openDir .empty).execAll
        [.apply "k" .null, .delete "k", .apply "k" (.bool true)]).get k).map StateEntry.value := by
  have h : NoCompaction (openDir .empty)
      [.apply "k" .null, .delete "k", .apply "k" (.bool true)] := by
    refine ⟨?_, ?_, ?_, trivial⟩ <;> decide +kernel
  refine ⟨h, (reopen_restores_iff _ h).mpr fun k v hv => ⟨.bool true, ?_⟩⟩
  obtain rfl : k = "k" := by
    simp at hv
    rcases hv with hv | hv <;> exact hv.1
  rfl

/-- A deleted key comes back as a present null. -/
theorem reopen_revives_deleted :
    NoCompaction (openDir .empty) [.apply "k" (.bool true), .delete "k"] ∧
    ((openDir .empty).execAll [.apply "k" (.bool true), .delete "k"]).get "k" = none ∧
    ((openDir .empty).execAll [.apply "k" (.bool true), .delete "k"]).reopen.get "k" =
      some ⟨2, .null⟩ := by
  refine ⟨⟨?_, ?_, trivial⟩, ?_⟩ <;> decide +kernel

end Restart

end Sodp.StateStore
