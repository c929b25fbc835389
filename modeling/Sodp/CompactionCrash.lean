import Sodp.LogImage
import Sodp.SegmentFiles
import Sodp.StoreVersions

/-!
# Crashes during a compaction

A compaction writes the snapshot to a new segment, creates the segment for the writes to come and
deletes the older segments, smallest number first. A process that stops on the way leaves all old
segments and part of the snapshot, or the whole snapshot and some of the old segments. While keys
are only written and never deleted, each of the two sets shows the newest value of every key, and
every other record is older or a copy.
-/

namespace Sodp.StateStore
open RecordFile StampedLog

structure Mirrored (s : StateStore) : Prop where
  persistent : ∃ plog, s.plog = some plog
  one_value : OneValue s.records
  record_le : ∀ r ∈ s.records, r.version ≤ s.globalVersion
  image : Image s.records s.globalVersion s.snapshot

section Mirrored
variable {s : StateStore} {logDir : Directory}

theorem mirrored_openDir (h : OneValue logDir.records) :
    Mirrored (openDir logDir) := by
  refine ⟨⟨_, rfl⟩, ?_, ?_, ?_⟩
  · rw [records_openDir]
    exact h
  · rw [records_openDir]
    exact fun r hr => le_newest LogEntry.version hr
  · rw [records_openDir]
    exact image_openDir logDir

theorem Mirrored.reopen (h : Mirrored s) : Mirrored s.reopen := by
  apply mirrored_openDir
  have hrecords := records_directory s
  rw [directory] at hrecords
  rw [hrecords]
  exact h.one_value

theorem mirrored_of_snapshot (hplog : ∃ plog, s.plog = some plog)
    (hrecords : s.records = s.snapshot)
    (hle : ∀ x ∈ s.snapshot, x.version ≤ s.globalVersion) : Mirrored s := by
  refine ⟨hplog, ?_, ?_, ?_⟩
  · intro r hr q hq hkey _
    rw [hrecords] at hr hq
    rw [List.inj_on_of_nodup_map s.snapshot_keys_nodup hr hq hkey]
  · rw [hrecords]
    exact hle
  · rw [hrecords]
    exact ⟨hle, fun x hx => ⟨x, Copies.self hx⟩, fun r hr _ => ⟨r, hr, rfl, le_refl _⟩⟩

theorem Mirrored.compactPlog (h : Mirrored s) : Mirrored s.compactPlog := by
  obtain ⟨plog, hplog⟩ := h.persistent
  refine mirrored_of_snapshot ⟨plog.compact s.snapshot, ?_⟩ ?_ h.image.le
  · rw [StateStore.compactPlog, hplog, Option.map_some]
  · exact records_compactPlog hplog

theorem snapshot_exec (c : Call) : (s.exec c).1.snapshot = (s.touch c).snapshot := by
  rw [snapshot, entries_exec, snapshot]

theorem Mirrored.exec_apply (h : Mirrored s) (key : String) (newValue : Value) :
    Mirrored (s.exec (.apply key newValue)).1 := by
  obtain ⟨_, hplog⟩ := h.persistent
  have hpersistent := plog_exec (c := .apply key newValue) h.persistent
  cases hrecord : s.recordOf (.apply key newValue) with
  | none =>
    have hops : s.opsFor key newValue = [] := by
      by_contra hne
      simp [recordOf, hne] at hrecord
    have hglobal : (s.exec (.apply key newValue)).1.globalVersion = s.globalVersion + 1 := by
      rw [exec_apply_same hops]
      rfl
    refine ⟨hpersistent, ?_, ?_, ?_⟩
    · rw [records_exec_of_none hrecord]
      exact h.one_value
    · rw [records_exec_of_none hrecord, hglobal]
      exact fun r hr => Nat.le_succ_of_le (h.record_le r hr)
    · rw [records_exec_of_none hrecord, hglobal, snapshot_exec]
      exact h.image.touch_same h.record_le hops
  | some record =>
    have hglobal := globalVersion_exec_of_record hrecord
    have himage := h.image.touch_issue h.record_le hrecord
    have hversion := (recordOf_eq_some hrecord).1
    have hold : ∀ r ∈ s.records, r.version < record.version := by
      intro r hr
      have hle := h.record_le r hr
      omega
    rw [← snapshot_exec, ← hglobal] at himage
    have hrecords := records_exec_of_record hplog hrecord
    split_ifs at hrecords
    · exact mirrored_of_snapshot hpersistent hrecords himage.le
    · refine ⟨hpersistent, ?_, ?_, ?_⟩
      · rw [hrecords]
        exact OneValue.issue h.one_value hold
      · rw [hrecords, hglobal]
        intro r hr
        rcases List.mem_append.mp hr with hr | hr
        · exact Nat.le_succ_of_le (h.record_le r hr)
        · rw [List.mem_singleton.mp hr]
          exact hversion.le
      · rw [hrecords]
        exact himage

def StoreEvent.Keeps : StoreEvent → Prop
  | .call (.delete _) => False
  | _ => True

theorem Mirrored.handleAll (h : Mirrored s) {events : List StoreEvent}
    (hevents : ∀ event ∈ events, event.Keeps) : Mirrored (s.handleAll events) := by
  induction events generalizing s with
  | nil => exact h
  | cons event events ih =>
    refine ih ?_ fun e he => hevents e (List.mem_cons_of_mem event he)
    have hkeeps := hevents event List.mem_cons_self
    match event with
    | .call (.apply key newValue) => exact h.exec_apply key newValue
    | .call (.delete _) => exact absurd hkeeps id
    | .compact => exact h.compactPlog
    | .reopen => exact h.reopen

theorem Mirrored.value_eq (h : Mirrored s)
    (hof : ∀ x ∈ logDir.records, x ∈ s.records ∨ x ∈ s.snapshot)
    (hall : (∀ x ∈ s.records, x ∈ logDir.records) ∨ ∀ x ∈ s.snapshot, x ∈ logDir.records)
    {t : StateStore} (ht : OpensAs logDir t) (key : String) :
    (t.get key).map StateEntry.value = (s.get key).map StateEntry.value := by
  cases hget : s.get key with
  | none =>
    have hnone : ∀ x ∈ s.snapshot, x.key ≠ key := by
      intro x hx hkey
      obtain ⟨e, he, -⟩ := mem_snapshot.mp hx
      rw [hkey, hget] at he
      cases he
    rw [ht.get_eq_none]
    intro x hx hkey
    rcases hof x hx with hx | hx
    · obtain ⟨y, hy, hykey, -⟩ := h.image.covers x hx (h.record_le x hx)
      exact hnone y hy (hykey.trans hkey)
    · exact hnone x hx hkey
  | some e =>
    have hentry : (⟨e.version, key, [], e.value⟩ : LogEntry) ∈ s.snapshot :=
      mem_snapshot.mpr ⟨e, hget, rfl⟩
    obtain ⟨r, hr⟩ := h.image.copies _ hentry
    -- from the restated record on, records and snapshot agree about the key
    have hsame : ∀ x ∈ logDir.records, x.key = key → r.version ≤ x.version → x.value = e.value := by
      intro x hx hkey hle
      rcases hof x hx with hx | hx
      · have hxr := h.image.newest hentry hr hx (h.record_le x hx) hkey
        rw [h.one_value x hx r hr.mem (hkey.trans hr.key.symm) (le_antisymm hxr hle)]
        exact hr.value
      · rw [List.inj_on_of_nodup_map s.snapshot_keys_nodup hx hentry hkey]
    have hfound : ∃ x ∈ logDir.records, x.key = key ∧ r.version ≤ x.version := by
      rcases hall with hall | hall
      · exact ⟨r, hall r hr.mem, hr.key, le_refl _⟩
      · exact ⟨_, hall _ hentry, rfl, hr.le⟩
    obtain ⟨x, hx, rfl, hle⟩ := hfound
    have hvalue := ht.value_eq hx fun b hb hkey hble => by
      rw [hsame b hb hkey (hle.trans hble), hsame x hx rfl hle]
    rw [hvalue, hsame x hx rfl hle, Option.map_some]

theorem records_of_plog {plog : SegmentedLog} (hplog : s.plog = some plog) :
    s.records = plog.records := by
  rw [records, hplog, Option.map_some, Option.getD_some]

end Mirrored

end Sodp.StateStore

namespace Sodp.FileLog
open RecordFile StateStore

/-- How far a compaction has come: so many bytes of the snapshot segment are written,
or the live segment is created and so many old segments are deleted. -/
inductive CompactPoint where
  | writing (n : ℕ)
  | deleting (k : ℕ)

section Compaction
variable (codec : Codec LogEntry)

def compactFiles (log : FileLog) (snapshot : List LogEntry) : CompactPoint → Files
  | .writing n => log.logDir.insert (log.currentSeg + 1) ((writeAll codec snapshot).take n)
  | .deleting k => (log.logDir.keys.take k).foldl OrderedMap.erase
      ((log.logDir.insert (log.currentSeg + 1) (writeAll codec snapshot)).insert
        (log.currentSeg + 2) [])

def compact (log : FileLog) (snapshot : List LogEntry) : FileLog where
  logDir := log.compactFiles codec snapshot (.deleting log.logDir.keys.length)
  currentSeg := log.currentSeg + 2
  entryCount := 0
  segmentCount := 2

variable {codec} {log : FileLog} {records : SegmentedLog} {snapshot : List LogEntry}

theorem foldl_erase_map {α β : Type*} (f : α → β) (ks : List ℕ) (m : OrderedMap ℕ α) :
    ks.foldl OrderedMap.erase (m.map f) = (ks.foldl OrderedMap.erase m).map f := by
  apply OrderedMap.ext_get?
  intro j
  rw [OrderedMap.get?_map, OrderedMap.get?_foldl_erase, OrderedMap.get?_foldl_erase,
    OrderedMap.get?_map]
  split_ifs <;> rfl

theorem Matches.compactFiles_deleting (h : Matches codec log records) (k : ℕ) :
    log.compactFiles codec snapshot (.deleting k) =
      ((records.logDir.keys.take k).foldl OrderedMap.erase
        ((records.logDir.insert (records.currentSeg + 1) snapshot).insert
          (records.currentSeg + 2) [])).map (writeAll codec) := by
  rw [← foldl_erase_map, OrderedMap.map_insert, OrderedMap.map_insert, compactFiles, h.logDir,
    h.currentSeg]
  rfl

theorem Matches.compact (h : Matches codec log records) (snapshot : List LogEntry) :
    Matches codec (log.compact codec snapshot) (records.compact snapshot) := by
  have hkeys : log.logDir.keys = records.logDir.keys := by
    rw [h.logDir]
    rfl
  refine ⟨?_, congrArg (· + 2) h.currentSeg, rfl, rfl⟩
  rw [FileLog.compact, h.compactFiles_deleting, hkeys, List.take_length]
  rfl

theorem mem_records_insert {logDir : Directory} {segNum : ℕ} (hnew : segNum ∉ logDir.keys)
    {chunk : List LogEntry} {x : LogEntry} :
    x ∈ Directory.records (logDir.insert segNum chunk) ↔ x ∈ logDir.records ∨ x ∈ chunk := by
  rw [Directory.mem_records, Directory.mem_records]
  constructor
  · rintro ⟨n, c, hget, hx⟩
    rw [OrderedMap.get?_insert] at hget
    split_ifs at hget
    · exact .inr (Option.some.inj hget ▸ hx)
    · exact .inl ⟨n, c, hget, hx⟩
  · rintro (⟨n, c, hget, hx⟩ | hx)
    · have hne : n ≠ segNum := by
        rintro rfl
        exact hnew ((OrderedMap.mem_keys_iff ..).mpr ⟨c, hget⟩)
      exact ⟨n, c, (OrderedMap.get?_insert_of_ne _ hne _).trans hget, hx⟩
    · exact ⟨segNum, chunk, OrderedMap.get?_insert_self .., hx⟩

theorem Matches.crashed (h : Matches codec log records)
    (hsnapshot : ∀ entry ∈ snapshot, Lossless codec entry) (point : CompactPoint) :
    ∃ logDir : Directory, Stored codec (log.compactFiles codec snapshot point) logDir ∧
      (∀ x ∈ logDir.records, x ∈ records.records ∨ x ∈ snapshot) ∧
      ((∀ x ∈ records.records, x ∈ logDir.records) ∨ ∀ x ∈ snapshot, x ∈ logDir.records) := by
  cases point with
  | writing n =>
    obtain ⟨whole, torn, hwhole, htorn, htake⟩ := take_writeAll hsnapshot n
    have hnew := records.succ_current_not_mem
    refine ⟨records.logDir.insert (records.currentSeg + 1) whole, fun segNum => ?_, fun x hx => ?_,
      .inl fun x hx => (mem_records_insert hnew).mpr (.inl hx)⟩
    · rw [compactFiles, OrderedMap.get?_insert, OrderedMap.get?_insert, h.currentSeg]
      split_ifs
      · exact Option.Rel.some ⟨torn, htorn, htake⟩
      · exact h.stored segNum
    · rcases (mem_records_insert hnew).mp hx with hx | hx
      · exact .inl hx
      · exact .inr (hwhole.subset hx)
  | deleting k =>
    refine ⟨_, h.compactFiles_deleting k ▸ stored_map _, fun x hx => ?_, .inr fun x hx => ?_⟩
    · obtain ⟨n, chunk, hget, hx⟩ := Directory.mem_records.mp hx
      rw [OrderedMap.get?_foldl_erase, OrderedMap.get?_insert, OrderedMap.get?_insert] at hget
      split_ifs at hget
      · rw [← Option.some.inj hget] at hx
        exact absurd hx List.not_mem_nil
      · exact .inr (Option.some.inj hget ▸ hx)
      · exact .inl (Directory.mem_records.mpr ⟨n, chunk, hget, hx⟩)
    · refine Directory.mem_records.mpr ⟨records.currentSeg + 1, snapshot, ?_, hx⟩
      have hkept : records.currentSeg + 1 ∉ records.logDir.keys.take k :=
        fun hmem => records.succ_current_not_mem (List.mem_of_mem_take hmem)
      rw [OrderedMap.get?_foldl_erase, if_neg hkept, OrderedMap.get?_insert_of_ne _ (by omega),
        OrderedMap.get?_insert_self]

theorem Matches.readDir_crashed (h : Matches codec log records)
    (hrecords : ∀ entry ∈ records.records, Lossless codec entry)
    (hsnapshot : ∀ entry ∈ snapshot, Lossless codec entry) (point : CompactPoint) :
    (∀ x ∈ (readDir codec (log.compactFiles codec snapshot point)).records,
      x ∈ records.records ∨ x ∈ snapshot) ∧
    ((∀ x ∈ records.records, x ∈ (readDir codec (log.compactFiles codec snapshot point)).records) ∨
      ∀ x ∈ snapshot, x ∈ (readDir codec (log.compactFiles codec snapshot point)).records) := by
  obtain ⟨crashed, hstored, hof, hall⟩ := h.crashed hsnapshot point
  have hread : readDir codec (log.compactFiles codec snapshot point) = crashed := by
    refine hstored.readDir_eq fun entry hentry => ?_
    rcases hof entry hentry with hentry | hentry
    · exact hrecords entry hentry
    · exact hsnapshot entry hentry
  rw [hread]
  exact ⟨hof, hall⟩

/-- Wherever a compaction of a log of applies stops, the directory restores the value
of every key. -/
theorem compaction_crash_safe {logDir : Directory} (hdir : OneValue logDir.records)
    {events : List StoreEvent} (hevents : ∀ event ∈ events, event.Keeps)
    {plog : SegmentedLog} (hplog : ((openDir logDir).handleAll events).plog = some plog)
    (hrecords : ∀ entry ∈ plog.records, Lossless codec entry)
    (hsnapshot : ∀ entry ∈ ((openDir logDir).handleAll events).snapshot, Lossless codec entry)
    (hlog : Matches codec log plog) (point : CompactPoint) {t : StateStore}
    (ht : OpensAs (readDir codec (log.compactFiles codec
      ((openDir logDir).handleAll events).snapshot point)) t) (key : String) :
    (t.get key).map StateEntry.value =
      (((openDir logDir).handleAll events).get key).map StateEntry.value := by
  obtain ⟨hof, hall⟩ := hlog.readDir_crashed hrecords hsnapshot point
  rw [← records_of_plog hplog] at hof hall
  exact ((mirrored_openDir hdir).handleAll hevents).value_eq hof hall ht key

def nullDir : Directory := OrderedMap.empty.insert 0 [nullEntry]

def sameValue : List StoreEvent := [.call (.apply "k" .null)]

def twoCodec : Codec LogEntry :=
  tableCodec [(nullEntry, nullPayload),
    (⟨2, "k", [], .null⟩, [0x94, 0x02, 0xa1, 0x6b, 0x90, 0xc0])]

theorem compaction_crash_safe_torn : ((openDir (readDir twoCodec (compactFiles twoCodec
        (openFiles twoCodec (nullDir.map (writeAll twoCodec))).1
        ((openDir nullDir).handleAll sameValue).snapshot (.writing 7)))).get "k").map
      StateEntry.value = some .null := by
  have hdir : OneValue nullDir.records := by
    unfold OneValue
    decide +kernel
  have hlossless : ∀ entry ∈ nullDir.records ++ ((openDir nullDir).handleAll sameValue).snapshot,
      Lossless twoCodec entry := by
    simp only [lossless_iff]
    decide +kernel
  have hopen := (stored_map nullDir).openFiles
    fun entry hentry => hlossless entry (List.mem_append_left _ hentry)
  have hplog : ((openDir nullDir).handleAll sameValue).plog =
      some (SegmentedLog.openDir nullDir).1 := rfl
  have hrecords : ∀ entry ∈ (SegmentedLog.openDir nullDir).1.records, Lossless twoCodec entry := by
    rw [SegmentedLog.records_openDir]
    exact fun entry hentry => hlossless entry (List.mem_append_left _ hentry)
  have hvalue := compaction_crash_safe hdir (by simp [sameValue, StoreEvent.Keeps]) hplog hrecords
    (fun entry hentry => hlossless entry (List.mem_append_right _ hentry)) hopen.1 (.writing 7)
    (opensAs_openDir _) "k"
  rw [hvalue]
  decide +kernel

end Compaction

end Sodp.FileLog
