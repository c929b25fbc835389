import Sodp.RecordFile
import Sodp.SegmentedLog
import Sodp.Transition

/-!
# The segmented log as bytes

A process that stops while it appends leaves any part of its last record behind, and opening the
directory again cuts it off. Between crashes the files are the encodings of the segments of a
`SegmentedLog` with the same counters. The record codec is a parameter; the length in front of a
payload keeps 32 bits, and a longer record is lost together with what follows it in its segment.
-/

namespace Sodp
open RecordFile Transition OrderedMap List Option

variable {logDir : Directory}

theorem Directory.mem_records {entry : LogEntry} :
    entry ∈ logDir.records ↔ ∃ segNum chunk, logDir.get? segNum = some chunk ∧ entry ∈ chunk := by
  rw [records, List.mem_flatMap]
  constructor
  · rintro ⟨⟨segNum, chunk⟩, hmem, hentry⟩
    exact ⟨segNum, chunk, (OrderedMap.mem_toList ..).mp hmem, hentry⟩
  · rintro ⟨segNum, chunk, hget, hentry⟩
    exact ⟨(segNum, chunk), (OrderedMap.mem_toList ..).mpr hget, hentry⟩

namespace SegmentedLog

structure Counted (log : SegmentedLog) : Prop where
  entryCount : log.entryCount = (replaySegment log.logDir log.currentSeg).length
  segmentCount : log.segmentCount = log.logDir.keys.length

theorem counted_openDir (logDir : Directory) : Counted (openDir logDir).1 := by
  constructor
  · simp [openDir, replaySegment]
  · change max logDir.keys.length 1 = (logDir.insert (logDir.keys.getLast?.getD 0) _).keys.length
    rcases eq_nil_or_concat logDir.keys with hnil | ⟨_, _, hkeys⟩
    · have hlt : ∀ n ∈ logDir.keys, n < logDir.keys.getLast?.getD 0 := by simp [hnil]
      rw [keys_insert_of_lt hlt, hnil]
      rfl
    · have hmem : logDir.keys.getLast?.getD 0 ∈ logDir.keys := by simp [hkeys]
      rw [keys_insert_of_mem hmem, hkeys]
      simp

variable {log : SegmentedLog}

theorem Counted.rotate (h : Counted log) : Counted log.rotate := by
  have hlt : ∀ n ∈ log.logDir.keys, n < log.currentSeg + 1 :=
    fun n hn => Nat.lt_succ_of_le (log.le_current n hn)
  constructor
  · simp [SegmentedLog.rotate, replaySegment]
  · rw [SegmentedLog.rotate, keys_insert_of_lt hlt, length_append, h.segmentCount]
    rfl

theorem Counted.writeEntry (h : Counted log) (entry : LogEntry) :
    Counted (log.writeEntry entry) := by
  constructor
  · simp [SegmentedLog.writeEntry, h.entryCount, replaySegment]
  · rw [SegmentedLog.writeEntry, keys_insert_of_mem log.current_mem, h.segmentCount]

def rotateIfFull (log : SegmentedLog) : SegmentedLog :=
  if maxEntriesPerSegment ≤ log.entryCount then log.rotate else log

theorem append_eq (log : SegmentedLog) (entry : LogEntry) :
    log.append entry = log.rotateIfFull.writeEntry entry := rfl

theorem records_rotateIfFull (log : SegmentedLog) : log.rotateIfFull.records = log.records := by
  rw [rotateIfFull]
  split_ifs
  · exact records_rotate log
  · rfl

theorem Counted.rotateIfFull (h : Counted log) : Counted log.rotateIfFull := by
  rw [SegmentedLog.rotateIfFull]
  split_ifs
  · exact h.rotate
  · exact h

theorem Counted.append (h : Counted log) (entry : LogEntry) : Counted (log.append entry) :=
  h.rotateIfFull.writeEntry entry

end SegmentedLog

abbrev Files := OrderedMap ℕ Bytes

structure FileLog where
  logDir : Files
  currentSeg : ℕ
  entryCount : ℕ
  segmentCount : ℕ

namespace FileLog
open SegmentedLog (maxEntriesPerSegment)

def bytesOf (logDir : Files) (segNum : ℕ) : Bytes := (logDir.get? segNum).getD []

section Operations
variable (codec : Codec LogEntry)

def readDir (logDir : Files) : Directory := logDir.map fun file => (replay codec file).1

def openFiles (logDir : Files) : FileLog × List LogEntry :=
  let segments := logDir.keys
  let currentSeg := segments.getLast?.getD 0
  let healed := logDir.map (truncated codec)
  ({  logDir := healed.insert currentSeg (bytesOf healed currentSeg)
      currentSeg := currentSeg
      entryCount := (replaySegment (readDir codec logDir) currentSeg).length
      segmentCount := max segments.length 1 },
    (readDir codec logDir).records)

def rotate (log : FileLog) : FileLog where
  logDir := log.logDir.insert (log.currentSeg + 1) []
  currentSeg := log.currentSeg + 1
  entryCount := 0
  segmentCount := log.segmentCount + 1

def rotateIfFull (log : FileLog) : FileLog :=
  if maxEntriesPerSegment ≤ log.entryCount then log.rotate else log

def write (log : FileLog) (bytes : Bytes) : FileLog :=
  { log with
    logDir := log.logDir.insert log.currentSeg (bytesOf log.logDir log.currentSeg ++ bytes) }

def append (log : FileLog) (entry : LogEntry) : FileLog :=
  let log := log.rotateIfFull
  { log.write (writeEntry codec entry) with entryCount := log.entryCount + 1 }

def tear (log : FileLog) (entry : LogEntry) (n : ℕ) : Files :=
  (log.rotateIfFull.write ((writeEntry codec entry).take n)).logDir

end Operations

section Refinement
variable (codec : Codec LogEntry)

structure Matches (log : FileLog) (records : SegmentedLog) : Prop where
  logDir : log.logDir = records.logDir.map (writeAll codec)
  currentSeg : log.currentSeg = records.currentSeg
  entryCount : log.entryCount = records.entryCount
  segmentCount : log.segmentCount = records.segmentCount

def Stored (files : Files) (logDir : Directory) : Prop :=
  ∀ segNum, Option.Rel
    (fun file chunk => ∃ torn, Torn codec torn ∧ file = writeAll codec chunk ++ torn)
    (files.get? segNum) (logDir.get? segNum)

variable {codec}

theorem bytesOf_map (logDir : Directory) (segNum : ℕ) :
    bytesOf (logDir.map (writeAll codec)) segNum =
      writeAll codec (replaySegment logDir segNum) := by
  rw [bytesOf, get?_map, replaySegment]
  cases logDir.get? segNum <;> rfl

theorem stored_map (logDir : Directory) : Stored codec (logDir.map (writeAll codec)) logDir := by
  intro segNum
  rw [get?_map]
  cases logDir.get? segNum with
  | none => exact Option.Rel.none
  | some => exact Option.Rel.some ⟨[], torn_nil, (append_nil _).symm⟩

section Stored
variable {files : Files} {logDir : Directory} (h : Stored codec files logDir)
  (hlossless : ∀ entry ∈ logDir.records, Lossless codec entry)

include h hlossless

theorem Stored.replay_eq {segNum : ℕ} {file : Bytes} (hfile : files.get? segNum = some file) :
    ∃ chunk, logDir.get? segNum = some chunk ∧ (replay codec file).1 = chunk ∧
      truncated codec file = writeAll codec chunk := by
  have hseg := h segNum
  rw [hfile] at hseg
  cases hchunk : logDir.get? segNum with
  | none =>
    rw [hchunk] at hseg
    cases hseg
  | some chunk =>
    rw [hchunk] at hseg
    cases hseg with
    | some htorn =>
      obtain ⟨_, htorn, rfl⟩ := htorn
      have hall : ∀ entry ∈ chunk, Lossless codec entry :=
        fun entry he => hlossless entry (Directory.mem_records.mpr ⟨segNum, chunk, hchunk, he⟩)
      exact ⟨chunk, rfl, by rw [replay_writeAll hall htorn], truncated_writeAll hall htorn⟩

theorem Stored.map_eq {β : Type*} {f : Bytes → β} {g : List LogEntry → β}
    (hfg : ∀ segNum file, files.get? segNum = some file → ∀ chunk, (replay codec file).1 = chunk →
      truncated codec file = writeAll codec chunk → f file = g chunk) :
    files.map f = logDir.map g := by
  apply ext_get?
  intro segNum
  rw [get?_map, get?_map]
  cases hfile : files.get? segNum with
  | none =>
    have hseg := h segNum
    rw [hfile] at hseg
    cases hchunk : logDir.get? segNum with
    | none => rfl
    | some =>
      rw [hchunk] at hseg
      cases hseg
  | some file =>
    obtain ⟨chunk, hchunk, hreplay, htruncated⟩ := h.replay_eq hlossless hfile
    rw [hchunk, map_some, map_some, hfg segNum file hfile chunk hreplay htruncated]

theorem Stored.readDir_eq : readDir codec files = logDir := by
  have hmap := h.map_eq hlossless (f := fun file => (replay codec file).1) (g := id)
    fun _ _ _ _ hreplay _ => hreplay
  rw [readDir, hmap]
  apply ext_get?
  simp

theorem Stored.truncated_eq : files.map (truncated codec) = logDir.map (writeAll codec) :=
  h.map_eq hlossless fun _ _ _ _ _ htruncated => htruncated

theorem Stored.keys_eq : files.keys = logDir.keys := by
  rw [← h.readDir_eq hlossless]
  rfl

theorem Stored.openFiles : Matches codec (openFiles codec files).1 (SegmentedLog.openDir logDir).1 ∧
      (openFiles codec files).2 = logDir.records := by
  have hread := h.readDir_eq hlossless
  have hkeys := h.keys_eq hlossless
  refine ⟨⟨?_, ?_, ?_, ?_⟩, ?_⟩
  · simp only [FileLog.openFiles, SegmentedLog.openDir, h.truncated_eq hlossless, hkeys,
      bytesOf_map, map_insert]
  · simp only [FileLog.openFiles, SegmentedLog.openDir, hkeys]
  · simp only [FileLog.openFiles, SegmentedLog.openDir, hkeys, hread]
  · simp only [FileLog.openFiles, SegmentedLog.openDir, hkeys]
  · simp only [FileLog.openFiles, hread]

end Stored

section Matches
variable {log : FileLog} {records : SegmentedLog}

section
variable (h : Matches codec log records)
include h

theorem Matches.stored : Stored codec log.logDir records.logDir := by
  rw [h.logDir]
  exact stored_map records.logDir

theorem Matches.rotateIfFull :
    Matches codec log.rotateIfFull records.rotateIfFull := by
  rw [FileLog.rotateIfFull, SegmentedLog.rotateIfFull, h.entryCount]
  split_ifs
  · refine ⟨?_, ?_, rfl, ?_⟩
    · rw [FileLog.rotate, SegmentedLog.rotate, map_insert, h.logDir, h.currentSeg]
      rfl
    · exact congrArg (· + 1) h.currentSeg
    · exact congrArg (· + 1) h.segmentCount
  · exact h

theorem Matches.append (entry : LogEntry) :
    Matches codec (log.append codec entry) (records.append entry) := by
  have hready := h.rotateIfFull
  refine ⟨?_, hready.currentSeg, congrArg (· + 1) hready.entryCount, hready.segmentCount⟩
  rw [SegmentedLog.append_eq, SegmentedLog.writeEntry, map_insert, writeAll_append,
    ← bytesOf_map, ← hready.logDir, ← hready.currentSeg]
  simp [FileLog.append, write, writeAll]

theorem Matches.write_torn {torn : Bytes}
    (htorn : Torn codec torn) : Stored codec (log.write torn).logDir records.logDir := by
  intro segNum
  rw [write, get?_insert]
  split_ifs with hseg
  · obtain ⟨chunk, hchunk⟩ := (mem_keys_iff ..).mp records.current_mem
    have hbytes : bytesOf log.logDir log.currentSeg = writeAll codec chunk := by
      rw [h.logDir, h.currentSeg, bytesOf_map, replaySegment, hchunk, getD_some]
    rw [hbytes, hseg, h.currentSeg, hchunk]
    exact Option.Rel.some ⟨torn, htorn, rfl⟩
  · exact h.stored segNum

theorem Matches.tear {entry : LogEntry}
    (hshort : (codec.encode entry).length < 2 ^ 32) (n : ℕ) : Stored codec (log.tear codec entry n)
      (if n < (writeEntry codec entry).length then records.rotateIfFull.logDir
        else (records.append entry).logDir) := by
  split_ifs with hn
  · exact h.rotateIfFull.write_torn (torn_take hshort hn)
  · have hwhole := (h.append entry).stored
    rw [FileLog.tear, take_of_length_le (Nat.not_lt.mp hn)]
    exact hwhole

end

end Matches

end Refinement

section Runs
variable (codec : Codec LogEntry)

inductive LogState where
  | running (log : FileLog)
  | stopped (files : Files)

def LogState.files : LogState → Files
  | running log => log.logDir
  | stopped files => files

/-- A process that stops in `append` has written the first `n` bytes of the record. -/
inductive LogEvent where
  | openLog
  | append (entry : LogEntry)
  | crash
  | crashIn (entry : LogEntry) (n : ℕ)

namespace LogEvent

def entry? : LogEvent → Option LogEntry
  | append entry | crashIn entry _ => some entry
  | openLog | crash => none

def written? : LogEvent → Option LogEntry
  | append entry => some entry
  | crashIn entry n => if n < (writeEntry codec entry).length then none else some entry
  | openLog | crash => none

end LogEvent

def step : LogState → LogEvent → Option LogState
  | .stopped files, .openLog => some (.running (openFiles codec files).1)
  | .running log, .append entry => some (.running (log.append codec entry))
  | .running log, .crash => some (.stopped log.logDir)
  | .running log, .crashIn entry n => some (.stopped (log.tear codec entry n))
  | _, _ => none

def Represents (l : List LogEntry) : LogState → Prop
  | .running log => ∃ records, Matches codec log records ∧ records.Counted ∧ records.records = l
  | .stopped files => ∃ logDir, Stored codec files logDir ∧ logDir.records = l

def CountsFiles (log : FileLog) : Prop :=
  log.entryCount = (replay codec (bytesOf log.logDir log.currentSeg)).1.length ∧
  log.segmentCount = log.logDir.keys.length

variable {codec} {l : List LogEntry} {state state' : LogState}

theorem Represents.step {event : LogEvent}
    (h : Represents codec l state) (hl : ∀ entry ∈ l, Lossless codec entry)
    (hevent : ∀ entry ∈ event.entry?, (codec.encode entry).length < 2 ^ 32)
    (hstep : step codec state event = some state') :
    Represents codec (l ++ (event.written? codec).toList) state' := by
  cases state with
  | stopped =>
    obtain ⟨logDir, hstored, rfl⟩ := h
    cases event <;> simp only [FileLog.step, some.injEq, reduceCtorEq] at hstep
    subst hstep
    refine ⟨_, (hstored.openFiles hl).1, SegmentedLog.counted_openDir logDir, ?_⟩
    rw [SegmentedLog.records_openDir]
    exact (append_nil _).symm
  | running =>
    obtain ⟨records, hmatches, hcounted, rfl⟩ := h
    cases event <;> simp only [FileLog.step, some.injEq, reduceCtorEq] at hstep <;>
      subst hstep
    case append entry =>
      exact ⟨_, hmatches.append entry, hcounted.append entry, SegmentedLog.records_append ..⟩
    case crash => exact ⟨_, hmatches.stored, (append_nil _).symm⟩
    case crashIn entry n =>
      refine ⟨_, hmatches.tear (hevent entry rfl) n, ?_⟩
      rw [LogEvent.written?]
      split_ifs
      · exact (SegmentedLog.records_rotateIfFull records).trans (append_nil _).symm
      · exact SegmentedLog.records_append records entry

theorem represents_run {events : List LogEvent}
    (h : Represents codec l state) (hl : ∀ entry ∈ l, Lossless codec entry)
    (hevents : ∀ event ∈ events, ∀ entry ∈ event.entry?, Lossless codec entry)
    (hrun : run (step codec) state events = some state') :
    Represents codec (l ++ events.filterMap (LogEvent.written? codec)) state' ∧
      ∀ entry ∈ l ++ events.filterMap (LogEvent.written? codec), Lossless codec entry := by
  induction events generalizing state l with
  | nil =>
    rw [run_nil] at hrun
    cases hrun
    simpa using ⟨h, hl⟩
  | cons event events ih =>
    obtain ⟨_, hnext, hrest⟩ := run_cons_eq_some.mp hrun
    have hevent := hevents event mem_cons_self
    have hwritten : ∀ entry ∈ (event.written? codec).toList, entry ∈ event.entry? := by
      intro entry hentry
      cases event <;> simp [LogEvent.written?, LogEvent.entry?] at hentry ⊢
      case append => exact hentry.symm
      case crashIn => exact hentry.2
    have hfirst := h.step hl (fun entry he => (lossless_iff.mp (hevent entry he)).2) hnext
    have hl' : ∀ entry ∈ l ++ (event.written? codec).toList, Lossless codec entry := by
      intro entry hentry
      rcases mem_append.mp hentry with hentry | hentry
      · exact hl entry hentry
      · exact hevent entry (hwritten entry hentry)
    have hall := ih hfirst hl' (fun e he => hevents e (mem_cons_of_mem event he)) hrest
    rw [filterMap_cons]
    cases hw : event.written? codec with
    | none => simpa [hw] using hall
    | some => simpa [hw] using hall

theorem Matches.countsFiles {log : FileLog} {records : SegmentedLog}
    (h : Matches codec log records) (hcounted : records.Counted)
    (hl : ∀ entry ∈ records.records, Lossless codec entry) : CountsFiles codec log := by
  constructor
  · have hchunk : ∀ entry ∈ replaySegment records.logDir records.currentSeg,
        Lossless codec entry := by
      intro entry hentry
      obtain ⟨chunk, hget⟩ := (mem_keys_iff ..).mp records.current_mem
      rw [replaySegment, hget, getD_some] at hentry
      exact hl entry (Directory.mem_records.mpr ⟨_, chunk, hget, hentry⟩)
    have hreplay := replay_writeAll hchunk torn_nil
    rw [append_nil] at hreplay
    rw [h.logDir, h.currentSeg, bytesOf_map, hreplay, h.entryCount, hcounted.entryCount]
  · rw [h.segmentCount, hcounted.segmentCount, h.logDir]
    rfl

theorem Represents.stored (h : Represents codec l state) :
    ∃ logDir, Stored codec state.files logDir ∧ logDir.records = l := by
  cases state with
  | stopped => exact h
  | running =>
    obtain ⟨records, hmatches, -, hrecords⟩ := h
    exact ⟨records.logDir, hmatches.stored, hrecords⟩

theorem Stored.get?_openFiles {files : Files} (h : Stored codec files logDir)
    (hl : ∀ entry ∈ logDir.records, Lossless codec entry) {segNum : ℕ} {chunk : List LogEntry}
    (hchunk : logDir.get? segNum = some chunk) :
    (FileLog.openFiles codec files).1.logDir.get? segNum = some (writeAll codec chunk) := by
  have hsame : (SegmentedLog.openDir logDir).1.logDir.get? segNum = some chunk := by
    rw [SegmentedLog.openDir, get?_insert]
    split_ifs with hseg
    · rw [← hseg, replaySegment, hchunk, getD_some]
    · exact hchunk
  rw [(h.openFiles hl).1.logDir, get?_map, hsame, map_some]

theorem stored_empty : Stored codec .empty .empty := by
  intro segNum
  rw [get?_empty, get?_empty]
  exact Option.Rel.none

theorem represents_empty : Represents codec [] (.stopped .empty) := ⟨.empty, stored_empty, rfl⟩

/-- Whatever crashes have left behind, opening the log returns the records written in
full, in order, and cuts the files to them; the counters count records and files. -/
theorem log_refines_list {events : List LogEvent} {state : LogState}
    (hdecode : ∀ event ∈ events, ∀ entry ∈ event.entry?,
      codec.decode (codec.encode entry) = some entry)
    (hshort : ∀ event ∈ events, ∀ entry ∈ event.entry?, (codec.encode entry).length < 2 ^ 32)
    (hrun : run (step codec) (.stopped .empty) events = some state) :
    (openFiles codec state.files).2 = events.filterMap (LogEvent.written? codec) ∧
    (∀ segNum file, state.files.get? segNum = some file → ∃ chunk torn,
      file = writeAll codec chunk ++ torn ∧ Torn codec torn ∧
      (openFiles codec state.files).1.logDir.get? segNum = some (writeAll codec chunk)) ∧
    CountsFiles codec (openFiles codec state.files).1 ∧
    ∀ log, state = .running log → CountsFiles codec log := by
  obtain ⟨hrep, hl⟩ := represents_run represents_empty (by simp)
    (fun event he entry hentry => lossless_iff.mpr
      ⟨hdecode event he entry hentry, hshort event he entry hentry⟩) hrun
  rw [nil_append] at hrep hl
  obtain ⟨logDir, hstored, hrecords⟩ := hrep.stored
  rw [← hrecords] at hl
  obtain ⟨hmatches, hread⟩ := hstored.openFiles hl
  refine ⟨hread.trans hrecords, fun segNum file hfile => ?_, ?_, fun log hlog => ?_⟩
  · have hseg := hstored segNum
    rw [hfile] at hseg
    obtain ⟨chunk, hchunk, -, -⟩ := hstored.replay_eq hl hfile
    rw [hchunk] at hseg
    cases hseg with
    | some htorn =>
      obtain ⟨torn, htorn, hbytes⟩ := htorn
      exact ⟨chunk, torn, hbytes, htorn, hstored.get?_openFiles hl hchunk⟩
  · exact hmatches.countsFiles (SegmentedLog.counted_openDir logDir)
      (by rw [SegmentedLog.records_openDir]; exact hl)
  · subst hlog
    obtain ⟨_, hmatches, hcounted, hlist⟩ := hrep
    exact hmatches.countsFiles hcounted (by rw [hlist, ← hrecords]; exact hl)

def nullEntry : LogEntry := ⟨1, "k", [], .null⟩

def nullPayload : Bytes := [0x94, 0x01, 0xa1, 0x6b, 0x90, 0xc0]

def tableCodec (table : List (LogEntry × Bytes)) : Codec LogEntry where
  encode entry := ((table.find? fun row => row.1 = entry).map Prod.snd).getD []
  decode bytes := (table.find? fun row => row.2 = bytes).map Prod.fst

theorem tableCodec_encode (entry : LogEntry) (payload : Bytes) :
    (tableCodec [(entry, payload)]).encode entry = payload := by
  simp [tableCodec]

theorem tableCodec_decode (entry : LogEntry) (payload : Bytes) :
    (tableCodec [(entry, payload)]).decode payload = some entry := by
  simp [tableCodec]

def tornRun : List LogEvent :=
  [.openLog, .append nullEntry, .crashIn nullEntry 3, .openLog, .append nullEntry]

theorem log_refines_list_torn :
    ∃ log, run (step (tableCodec [(nullEntry, nullPayload)])) (.stopped .empty) tornRun =
        some (.running log) ∧
      (openFiles (tableCodec [(nullEntry, nullPayload)]) log.logDir).2 =
        [nullEntry, nullEntry] := by
  have hentry : ∀ event ∈ tornRun, ∀ entry ∈ event.entry?, entry = nullEntry := by
    simp [tornRun, LogEvent.entry?]
  refine ⟨_, rfl, (log_refines_list (fun event he entry hentry' => ?_)
    (fun event he entry hentry' => ?_) (rfl : run _ _ tornRun = some (.running _))).1⟩
  · rw [hentry event he entry hentry', tableCodec_encode, tableCodec_decode]
  · rw [hentry event he entry hentry', tableCodec_encode]
    decide

def longEntry (n : ℕ) : LogEntry := ⟨1, "k", [], .string (String.ofList (List.replicate n 'a'))⟩

def longPayload (n : ℕ) : Bytes :=
  [0x94, 0x01, 0xa1, 0x6b, 0x90, 0xdb] ++ (leBytes n).reverse ++ List.replicate n 0x61

theorem length_longPayload (n : ℕ) : (longPayload n).length = n + 10 := by
  simp [longPayload, leBytes]

def longCodec (n : ℕ) : Codec LogEntry := tableCodec [(longEntry n, longPayload n)]

theorem torn_long {n : ℕ} (hn : n + 10 = 2 ^ 32) :
    Torn (longCodec n) (writeEntry (longCodec n) (longEntry n)) := by
  intro e rest h
  have hnil : (tableCodec [(longEntry n, longPayload n)]).decode [] = none := by
    simp [tableCodec, longPayload]
  rw [writeEntry, longCodec, tableCodec_encode, readEntry_leBytes, length_longPayload, hn,
    Nat.mod_self, if_neg (Nat.not_lt_zero _), take_zero, hnil] at h
  cases h

theorem long_record_unread {n : ℕ} (hn : n + 10 = 2 ^ 32) :
    ∃ log, run (step (longCodec n)) (.stopped .empty)
        [.openLog, .append (longEntry n)] = some (.running log) ∧
      (longCodec n).decode ((longCodec n).encode (longEntry n)) = some (longEntry n) ∧
      (openFiles (longCodec n) log.logDir).2 = [] := by
  refine ⟨(openFiles (longCodec n) .empty).1.append (longCodec n) (longEntry n), rfl, ?_, ?_⟩
  · rw [longCodec, tableCodec_encode, tableCodec_decode]
  · have hopen : Matches (longCodec n) (openFiles (longCodec n) .empty).1
        (SegmentedLog.openDir .empty).1 :=
      (stored_empty.openFiles fun entry hentry => absurd hentry not_mem_nil).1
    have hstored := hopen.rotateIfFull.write_torn (torn_long hn)
    have hrecords : (SegmentedLog.openDir .empty).1.rotateIfFull.logDir.records = [] := by
      change SegmentedLog.records _ = _
      rw [SegmentedLog.records_rotateIfFull, SegmentedLog.records_openDir]
      rfl
    have hread := (hstored.openFiles (by simp [hrecords])).2
    rw [hrecords] at hread
    exact hread

/-- A record whose payload has 2 ^ 32 bytes is written in full and not returned. -/
theorem long_record_lost : ∃ log, run (step (longCodec 4294967286)) (.stopped .empty)
        [.openLog, .append (longEntry 4294967286)] = some (.running log) ∧
      (longCodec 4294967286).decode ((longCodec 4294967286).encode (longEntry 4294967286)) =
        some (longEntry 4294967286) ∧ (openFiles (longCodec 4294967286) log.logDir).2 = [] :=
  long_record_unread (by decide)

end Runs

end FileLog
end Sodp
