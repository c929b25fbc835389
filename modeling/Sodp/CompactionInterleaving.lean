import Sodp.LogAppend

/-!
# Compaction beside other writes

An `apply` stores its entry, appends its record under the log's mutex and, when the log then has
too many segments, takes a snapshot of the map without the mutex and replaces the log by it. Other
writers run between any two of these steps. Nothing is lost as long as every append succeeds, no
compaction replaces records newer than its snapshot, and the records that are left can be read back.
A failed append can leave part of its record in the segment, or in the buffer of the writer.
-/

namespace Sodp.StateStore
open RecordFile FileLog StampedLog Function Transition List Option

/-- Where one `apply` stands between its atomic steps. A snapshot is kept with the version counter
at which it was taken. -/
inductive Stage where
  | start
  | inserted (record : LogEntry)
  | due
  | snapshotTaken (snapshot : List LogEntry) (version : ℕ)
  | finished
deriving DecidableEq

/-- Concurrent `apply` calls. Beside the store and the calls' stages it is recorded which records
were issued, which were appended, and from which the files of the log are written. -/
structure Appliers (ι : Type*) where
  store : FileStore
  stage : ι → Stage
  issued : List LogEntry
  appended : List LogEntry
  inLog : List LogEntry

namespace Appliers
variable {ι : Type*} [DecidableEq ι] (codec : Codec LogEntry)

def begin (logDir : Directory) : Appliers ι :=
  ⟨.openStore codec (logDir.map (writeAll codec)), fun _ => .start, logDir.records, logDir.records,
    logDir.records⟩

def insertStep (c : Appliers ι) (i : ι) (key : String) (newValue : Value) : Appliers ι :=
  let version := c.store.memory.globalVersion + 1
  let ops := c.store.memory.opsFor key newValue
  let memory := c.store.memory.fetchAdd.insertEntry key version newValue
  if ops.isEmpty then
    { c with store := { c.store with memory := memory }, stage := update c.stage i .finished }
  else
    let record := ⟨version, key, ops, newValue⟩
    { c with
      store := { c.store with memory := memory.logDelta key version ops }
      stage := update c.stage i (.inserted record)
      issued := c.issued ++ [record] }

/-- The append under the mutex, and the look at the segment count that ends it. A failed write is
only reported. -/
def appendStep (c : Appliers ι) (i : ι) (record : LogEntry) (fault : Option AppendFault) :
    Appliers ι :=
  let result := c.store.plog.tryAppend codec record fault
  { c with
    store := { c.store with plog := result.1 }
    stage := update c.stage i
      (if SegmentedLog.maxSegmentsBeforeCompact < result.1.segmentCount then .due else .finished)
    appended := if result.2 = none then c.appended ++ [record] else c.appended
    inLog := if result.2 = none then c.inLog ++ [record] else c.inLog }

def snapshotStep (c : Appliers ι) (i : ι) : Appliers ι :=
  { c with
    stage := update c.stage i
      (.snapshotTaken c.store.memory.snapshot c.store.memory.globalVersion) }

def compactStep (c : Appliers ι) (i : ι) (snapshot : List LogEntry) : Appliers ι :=
  { c with
    store := { c.store with plog := c.store.plog.compact codec snapshot }
    stage := update c.stage i .finished
    inLog := snapshot }

/-- A turn names the writer and, for an append, where it fails. -/
def step (jobs : ι → String × Value) (c : Appliers ι) (turn : ι × Option AppendFault) :
    Option (Appliers ι) :=
  match c.stage turn.1 with
  | .start => some (c.insertStep turn.1 (jobs turn.1).1 (jobs turn.1).2)
  | .inserted record => some (c.appendStep codec turn.1 record turn.2)
  | .due => some (c.snapshotStep turn.1)
  | .snapshotTaken snapshot _ => some (c.compactStep codec turn.1 snapshot)
  | .finished => none

/-- No append fails, and no compaction replaces a record newer than its snapshot. -/
def NothingNewer (c : Appliers ι) (turn : ι × Option AppendFault) : Prop :=
  match c.stage turn.1 with
  | .inserted record => (c.store.plog.tryAppend codec record turn.2).2 = none
  | .snapshotTaken _ version => ∀ r ∈ c.inLog, r.version ≤ version
  | _ => True

structure Accounted (c : Appliers ι) : Prop where
  files : ∃ plog, Matches codec c.store.plog plog ∧ plog.records = c.inLog
  one_value : OneValue c.issued
  pending : ∀ i r, c.stage i = .inserted r → r ∈ c.issued
  known : ∀ r ∈ c.issued, r ∈ c.appended ∨ ∃ i, c.stage i = .inserted r
  appended_issued : ∀ r ∈ c.appended, r ∈ c.issued
  issued_le : ∀ r ∈ c.issued, r.version ≤ c.store.memory.globalVersion
  image : Image c.issued c.store.memory.globalVersion c.store.memory.snapshot
  snapshots : ∀ i snapshot version, c.stage i = .snapshotTaken snapshot version →
    version ≤ c.store.memory.globalVersion ∧ Image c.issued version snapshot
  records_copy : ∀ x ∈ c.inLog, ∃ r, Copies c.issued x r
  records_le : ∀ x ∈ c.inLog, x.version ≤ c.store.memory.globalVersion
  records_cover : ∀ r ∈ c.appended, ∃ x ∈ c.inLog, x.key = r.key ∧ r.version ≤ x.version

section Steps
variable {codec} {c : Appliers ι} {i j : ι} {r record : LogEntry}

theorem stage_of_update {stage : ι → Stage} {new old : Stage}
    (h : update stage i new j = old) (hne : new ≠ old) : j ≠ i ∧ stage j = old := by
  by_cases hj : j = i
  · subst hj
    rw [update_self] at h
    exact absurd h hne
  · rw [update_of_ne hj] at h
    exact ⟨hj, h⟩

section
variable (h : Accounted codec c)
include h

theorem Accounted.known_update (hi : ∀ r, c.stage i ≠ .inserted r) (new : Stage)
    (hr : r ∈ c.issued) : r ∈ c.appended ∨ ∃ j, update c.stage i new j = .inserted r := by
  rcases h.known r hr with hr | ⟨j, hj⟩
  · exact .inl hr
  · have hne : j ≠ i := fun he => hi r (he ▸ hj)
    exact .inr ⟨j, (update_of_ne hne _ _).trans hj⟩

theorem Accounted.insert_same (hi : c.stage i = .start) {key : String} {newValue : Value}
    (hops : c.store.memory.opsFor key newValue = []) :
    Accounted codec { c with
      store := { c.store with memory := c.store.memory.touch (.apply key newValue) }
      stage := update c.stage i .finished } where
  files := h.files
  one_value := h.one_value
  pending j r hj := h.pending j r (stage_of_update hj (by simp)).2
  known r hr := h.known_update (by simp [hi]) _ hr
  appended_issued := h.appended_issued
  issued_le r hr := Nat.le_succ_of_le (h.issued_le r hr)
  image := h.image.touch_same h.issued_le hops
  snapshots j snapshot version hj := by
    obtain ⟨hle, himage⟩ := h.snapshots j snapshot version (stage_of_update hj (by simp)).2
    exact ⟨Nat.le_succ_of_le hle, himage⟩
  records_copy := h.records_copy
  records_le x hx := Nat.le_succ_of_le (h.records_le x hx)
  records_cover := h.records_cover

theorem Accounted.insert_issue (hi : c.stage i = .start) {key : String} {newValue : Value}
    (hrecord : c.store.memory.recordOf (.apply key newValue) = some record) :
    Accounted codec { c with
      store := { c.store with memory :=
        (c.store.memory.touch (.apply key newValue)).logDelta key record.version record.ops }
      stage := update c.stage i (.inserted record)
      issued := c.issued ++ [record] } := by
  have hversion := (recordOf_eq_some hrecord).1
  have hold : ∀ r ∈ c.issued, r.version < record.version := by
    intro r hr
    have hle := h.issued_le r hr
    omega
  refine ⟨h.files, h.one_value.issue hold, fun j r hj => ?_, fun r hr => ?_, fun r hr => ?_,
    fun r hr => ?_, h.image.touch_issue h.issued_le hrecord, fun j snapshot version hj => ?_,
    fun x hx => ?_, fun x hx => Nat.le_succ_of_le (h.records_le x hx), h.records_cover⟩
  · by_cases hr : r = record
    · exact hr ▸ mem_append_right _ mem_cons_self
    · have hj := (stage_of_update hj (by simpa using Ne.symm hr)).2
      exact mem_append_left _ (h.pending j r hj)
  · rcases mem_append.mp hr with hr | hr
    · exact h.known_update (by simp [hi]) _ hr
    · rw [mem_singleton.mp hr]
      exact .inr ⟨i, update_self ..⟩
  · exact mem_append_left _ (h.appended_issued r hr)
  · rcases mem_append.mp hr with hr | hr
    · exact Nat.le_succ_of_le (h.issued_le r hr)
    · rw [mem_singleton.mp hr]
      exact hversion.le
  · obtain ⟨hle, himage⟩ := h.snapshots j snapshot version (stage_of_update hj (by simp)).2
    exact ⟨Nat.le_succ_of_le hle, himage.issue (by omega)⟩
  · obtain ⟨r, hr⟩ := h.records_copy x hx
    have hle := h.records_le x hx
    exact ⟨r, hr.issue (by omega)⟩

theorem Accounted.insertStep (hi : c.stage i = .start) (key : String) (newValue : Value) :
    Accounted codec (c.insertStep i key newValue) := by
  rw [Appliers.insertStep]
  by_cases hops : c.store.memory.opsFor key newValue = []
  · simp only [hops, List.isEmpty_nil, if_true]
    exact h.insert_same hi hops
  · simp only [List.isEmpty_iff, hops, if_false]
    exact h.insert_issue hi (if_neg hops)

theorem Accounted.appendStep {fault : Option AppendFault} (hi : c.stage i = .inserted record)
    (hok : (c.store.plog.tryAppend codec record fault).2 = none) :
    Accounted codec (c.appendStep codec i record fault) := by
  obtain ⟨plog, hmatches, hrecords⟩ := h.files
  have hissued := h.pending i record hi
  have hwritten := tryAppend_of_ok hok
  have hstage : ∀ j stage, stage ≠ .due → stage ≠ .finished →
      (c.appendStep codec i record fault).stage j = stage → c.stage j = stage := by
    intro j stage hdue hfinished hj
    refine (stage_of_update hj ?_).2
    split_ifs
    · exact hdue.symm
    · exact hfinished.symm
  have hlog : (c.appendStep codec i record fault).inLog = c.inLog ++ [record] := if_pos hok
  have happended : (c.appendStep codec i record fault).appended = c.appended ++ [record] :=
    if_pos hok
  refine ⟨⟨plog.append record, ?_, ?_⟩, h.one_value,
    fun j r hj => h.pending j r (hstage j _ (by simp) (by simp) hj), fun r hr => ?_,
    ?_, h.issued_le, h.image,
    fun j snapshot version hj => h.snapshots j snapshot version (hstage j _ (by simp) (by simp) hj),
    ?_, ?_, ?_⟩
  · change Matches codec (c.store.plog.tryAppend codec record fault).1 _
    rw [hwritten]
    exact hmatches.append record
  · rw [SegmentedLog.records_append, hrecords, hlog]
  · rw [happended]
    rcases h.known r hr with hr | ⟨j, hj⟩
    · exact .inl (mem_append_left _ hr)
    · by_cases hji : j = i
      · rw [hji, hi, Stage.inserted.injEq] at hj
        exact .inl (hj ▸ mem_append_right _ mem_cons_self)
      · exact .inr ⟨j, (update_of_ne hji _ _).trans hj⟩
  · rw [happended, forall_mem_append, forall_mem_singleton]
    exact ⟨h.appended_issued, hissued⟩
  · rw [hlog, forall_mem_append, forall_mem_singleton]
    exact ⟨h.records_copy, record, Copies.self hissued⟩
  · rw [hlog, forall_mem_append, forall_mem_singleton]
    exact ⟨h.records_le, h.issued_le record hissued⟩
  · rw [happended, hlog, forall_mem_append, forall_mem_singleton]
    refine ⟨fun r hr => ?_, record, mem_append_right _ mem_cons_self, rfl, le_refl _⟩
    obtain ⟨x, hx, hkey, hle⟩ := h.records_cover r hr
    exact ⟨x, mem_append_left _ hx, hkey, hle⟩

theorem Accounted.snapshotStep (hi : c.stage i = .due) : Accounted codec (c.snapshotStep i) := by
  refine { h with
    pending := fun j r hj => h.pending j r (stage_of_update hj (by simp)).2
    known := fun r hr => h.known_update (by simp [hi]) _ hr
    snapshots := fun j snapshot version hj => ?_ }
  by_cases hji : j = i
  · subst hji
    change update c.stage j _ j = _ at hj
    rw [update_self, Stage.snapshotTaken.injEq] at hj
    obtain ⟨rfl, rfl⟩ := hj
    exact ⟨le_refl _, h.image⟩
  · change update c.stage i _ j = _ at hj
    rw [update_of_ne hji] at hj
    exact h.snapshots j snapshot version hj

theorem Accounted.compactStep {snapshot : List LogEntry} {version : ℕ}
    (hi : c.stage i = .snapshotTaken snapshot version)
    (hnewer : ∀ r ∈ c.inLog, r.version ≤ version) :
    Accounted codec (c.compactStep codec i snapshot) := by
  obtain ⟨plog, hmatches, -⟩ := h.files
  obtain ⟨hversion, himage⟩ := h.snapshots i snapshot version hi
  refine { h with
    files := ⟨plog.compact snapshot, hmatches.compact snapshot,
      SegmentedLog.records_compact plog snapshot⟩
    pending := fun j r hj => h.pending j r (stage_of_update hj (by simp)).2
    known := fun r hr => h.known_update (by simp [hi]) _ hr
    snapshots := fun j snapshot version hj =>
      h.snapshots j snapshot version (stage_of_update hj (by simp)).2
    records_copy := himage.copies
    records_le := fun x hx => (himage.le x hx).trans hversion
    records_cover := fun r hr => ?_ }
  obtain ⟨x, hx, -, hle⟩ := h.records_cover r hr
  exact himage.covers r (h.appended_issued r hr) (hle.trans (hnewer x hx))

theorem Accounted.step {jobs : ι → String × Value} {turn : ι × Option AppendFault}
    {c' : Appliers ι} (hok : NothingNewer codec c turn)
    (hstep : step codec jobs c turn = some c') : Accounted codec c' := by
  rw [Appliers.step] at hstep
  rw [NothingNewer] at hok
  cases hi : c.stage turn.1 with
  | start =>
    rw [hi, some.injEq] at hstep
    exact hstep ▸ h.insertStep hi _ _
  | inserted =>
    rw [hi, some.injEq] at hstep
    rw [hi] at hok
    exact hstep ▸ h.appendStep hi hok
  | due =>
    rw [hi, some.injEq] at hstep
    exact hstep ▸ h.snapshotStep hi
  | snapshotTaken =>
    rw [hi, some.injEq] at hstep
    rw [hi] at hok
    exact hstep ▸ h.compactStep hi hok
  | finished => simp [hi] at hstep

end

end Steps

variable {codec}

omit [DecidableEq ι] in
theorem accounted_begin {logDir : Directory} (hdir : OneValue logDir.records)
    (hread : ∀ r ∈ logDir.records, Lossless codec r) :
    Accounted codec (begin codec logDir : Appliers ι) := by
  have hfiles : readDir codec (logDir.map (writeAll codec)) = logDir :=
    (stored_map logDir).readDir_eq hread
  have hmemory : (begin codec logDir : Appliers ι).store.memory =
      { openDir logDir with plog := none } := by
    rw [begin, FileStore.openStore, hfiles]
  refine ⟨⟨_, ((stored_map logDir).openFiles hread).1, SegmentedLog.records_openDir logDir⟩, hdir,
    by simp [begin], fun r hr => .inl hr, fun r hr => hr, ?_, ?_, by simp [begin],
    fun x hx => ⟨x, Copies.self hx⟩, ?_, fun r hr => ⟨r, hr, rfl, le_refl _⟩⟩
  · rw [hmemory]
    exact fun r hr => le_newest LogEntry.version hr
  · rw [hmemory]
    exact image_openDir logDir
  · rw [hmemory]
    exact fun r hr => le_newest LogEntry.version hr

omit [DecidableEq ι] in
theorem Accounted.reopened {c : Appliers ι} (h : Accounted codec c)
    (hdone : ∀ i, c.stage i = .finished) (hread : ∀ r ∈ c.inLog, Lossless codec r)
    {s : StateStore} (hs : OpensAs (readDir codec c.store.plog.logDir) s) (key : String) :
    (s.get key).map StateEntry.value =
      (latest LogEntry.key LogEntry.version key c.appended).map LogEntry.value := by
  obtain ⟨plog, hmatches, hrecords⟩ := h.files
  rw [hmatches.stored.readDir_eq (fun r hr => hread r (hrecords ▸ hr))] at hs
  have hmem : ∀ x, x ∈ plog.logDir.records ↔ x ∈ c.inLog := fun x => by rw [← hrecords]; rfl
  have hcopy : ∀ x ∈ c.inLog, ∃ r ∈ c.appended, Copies c.issued x r := by
    intro x hx
    obtain ⟨r, hr⟩ := h.records_copy x hx
    rcases h.known r hr.mem with happended | ⟨i, hi⟩
    · exact ⟨r, happended, hr⟩
    · simp [hdone i] at hi
  cases hlatest : latest LogEntry.key LogEntry.version key c.appended with
  | none =>
    rw [hs.get_eq_none]
    · rfl
    · intro x hx hkey
      obtain ⟨r, hr, hcopies⟩ := hcopy x ((hmem x).mp hx)
      exact (latest_eq_none_iff LogEntry.key LogEntry.version).mp hlatest r hr
        (hcopies.key.trans hkey)
  | some a =>
    obtain ⟨ha, hakey⟩ := latest_eq_some LogEntry.key LogEntry.version hlatest
    have hsame : ∀ x ∈ c.inLog, x.key = key → a.version ≤ x.version → x.value = a.value := by
      intro x hx hkey hle
      obtain ⟨r, hr, hcopies⟩ := hcopy x hx
      have hra := le_latest LogEntry.key LogEntry.version hlatest hr (hcopies.key.trans hkey)
      have har := hcopies.newest a (h.appended_issued a ha) (hakey.trans hkey.symm) hle
      rw [← hcopies.value]
      exact h.one_value r hcopies.mem a (h.appended_issued a ha)
        (hcopies.key.trans (hkey.trans hakey.symm)) (le_antisymm hra har)
    obtain ⟨x, hx, hxkey, hxle⟩ := h.records_cover a ha
    have hxk : x.key = key := hxkey.trans hakey
    have hvalue := hs.value_eq ((hmem x).mpr hx) fun b hb hbkey hble => by
      rw [hsame b ((hmem b).mp hb) (hbkey.trans hxk) (hxle.trans hble), hsame x hx hxk hxle]
    rw [hxk, hsame x hx hxk hxle] at hvalue
    rw [hvalue, map_some]

/-- Concurrent applies lose nothing to the compactions among them if no append fails, no compaction
replaces a record newer than its snapshot, and the log can be read back. -/
theorem applies_survive_compaction {format : Codec Item} {jobs : ι → String × Value}
    {logDir : Directory} {turns : List (ι × Option AppendFault)} {c : Appliers ι}
    (hdir : OneValue logDir.records) (hopen : ∀ r ∈ logDir.records, r.ReadBack format)
    (hrun : run (step (payloadCodec format) jobs) (begin (payloadCodec format) logDir) turns =
      some c)
    (hnewer : Transition.Along (step (payloadCodec format) jobs)
      (NothingNewer (payloadCodec format)) (begin (payloadCodec format) logDir) turns)
    (hdone : ∀ i, c.stage i = .finished) (hread : ∀ r ∈ c.inLog, r.ReadBack format)
    {s : StateStore} (hs : OpensAs (readDir (payloadCodec format) c.store.plog.logDir) s)
    (key : String) : (s.get key).map StateEntry.value =
      (latest LogEntry.key LogEntry.version key c.appended).map LogEntry.value := by
  have hbegin : Accounted (payloadCodec format) (begin (payloadCodec format) logDir : Appliers ι) :=
    accounted_begin hdir fun r hr => (hopen r hr).lossless
  have hacc : Accounted (payloadCodec format) c :=
    invariant_along (I := Accounted (payloadCodec format))
      (fun _ _ _ h hok hstep => h.step hok hstep) hbegin hnewer hrun
  exact hacc.reopened hdone (fun r hr => (hread r hr).lossless) hs key

def grownDir : Directory :=
  (((OrderedMap.empty.insert 0 [⟨1, "a", [], .bool true⟩]).insert 1 []).insert 2 []).insert 3 []

def twoJobs : Bool → String × Value
  | false => ("a", .bool false)
  | true => ("b", .bool true)

def twoRecords : List LogEntry :=
  [⟨1, "a", [], .bool true⟩, ⟨2, "a", [.update "/" (.bool false)], .bool false⟩,
    ⟨3, "b", [.add "/" (.bool true)], .bool true⟩, ⟨2, "a", [], .bool false⟩,
    ⟨3, "b", [], .bool true⟩]

def jobsCodec : Codec LogEntry := payloadCodec (shortFormat twoRecords)

theorem readBack_twoRecords : ∀ r ∈ twoRecords, r.ReadBack (shortFormat twoRecords) := by
  intro r hr
  have hshort : ∀ r ∈ twoRecords,
      ((shortFormat twoRecords).encode r.serialize).length < 2 ^ 32 := by decide +kernel
  have hvalues : ∀ r ∈ twoRecords, ∀ op ∈ r.ops, ∃ v ∈ op.value, v ≠ Value.null := by decide +kernel
  exact ⟨shortFormat_carries hr (by decide +kernel), hshort r hr, hvalues r hr⟩

instance decidableNothingNewer (codec : Codec LogEntry) (c : Appliers ι)
    (turn : ι × Option AppendFault) : Decidable (NothingNewer codec c turn) := by
  rw [NothingNewer]
  cases c.stage turn.1 <;> infer_instance

/-- The second writer stores its entry before the first takes its snapshot, and appends its record
after the first has compacted the log. -/
theorem applies_survive_compaction_two :
    ∃ c, run (step jobsCodec twoJobs) (begin jobsCodec grownDir) [(false, none), (false, none),
        (true, none), (false, none), (false, none), (true, none)] = some c ∧
      ((openDir (readDir jobsCodec c.store.plog.logDir)).get "b").map StateEntry.value =
        some (.bool true) := by
  have hdir : OneValue grownDir.records := by unfold OneValue; decide +kernel
  have hopen : ∀ r ∈ grownDir.records, r ∈ twoRecords := by decide +kernel
  refine exists_run (fun c => ((∀ i, c.stage i = .finished) ∧ ∀ r ∈ c.inLog, r ∈ twoRecords) ∧
    (latest LogEntry.key LogEntry.version "b" c.appended).map LogEntry.value = some (.bool true))
    (by decide +kernel) ?_
  rintro c hc ⟨⟨hdone, hlog⟩, hvalue⟩
  rw [← hvalue]
  exact applies_survive_compaction hdir (fun r hr => readBack_twoRecords r (hopen r hr)) hc
    (by decide +kernel) hdone (fun r hr => readBack_twoRecords r (hlog r hr))
    (opensAs_openDir _) "b"

def fate (c : Appliers Bool) : Bool × Option Value × Option Value × Option Value :=
  (decide (∀ i, c.stage i = .finished),
    (latest LogEntry.key LogEntry.version "b" c.appended).map LogEntry.value,
    (c.store.memory.get "b").map StateEntry.value,
    ((openDir (readDir jobsCodec c.store.plog.logDir)).get "b").map StateEntry.value)

/-- The first writer waits with its snapshot while the second stores, appends and compacts: its own
compaction then deletes the second writer's record. And a snapshot shows a value whose append is
still to come and then fails. -/
theorem compaction_loses_apply :
    (run (step jobsCodec twoJobs) (begin jobsCodec grownDir) [(false, none), (false, none),
      (false, none), (true, none), (true, none), (true, none), (true, none), (false, none)]).map
      fate = some (true, some (.bool true), some (.bool true), none) ∧
    (run (step jobsCodec twoJobs) (begin jobsCodec grownDir) [(false, none), (false, none),
      (true, none), (false, none), (false, none), (true, some (.write 0))]).map fate =
      some (true, none, some (.bool true), some (.bool true)) := by
  constructor <;> decide +kernel

end Appliers
end Sodp.StateStore
