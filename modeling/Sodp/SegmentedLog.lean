import Sodp.Delta

/-!
# The segmented on-disk log

A log directory holds numbered segment files. The model keeps the records themselves, so it is exact
for a lossless codec and for writes that succeed. An open log always writes to the segment with the
highest number, so creating the next one never meets an existing file.
-/

namespace Sodp
open OrderedMap List

structure LogEntry where
  version : ℕ
  key : String
  ops : List DeltaOp
  value : Value
deriving DecidableEq

abbrev Directory := OrderedMap ℕ (List LogEntry)

def replaySegment (logDir : Directory) (segNum : ℕ) : List LogEntry := (logDir.get? segNum).getD []

def Directory.records (logDir : Directory) : List LogEntry := logDir.toList.flatMap Prod.snd

theorem Directory.records_insert {logDir : Directory} {segNum : ℕ}
    (h : ∀ n ∈ logDir.keys, n ≤ segNum) (entries : List LogEntry) :
    Directory.records (logDir.insert segNum (replaySegment logDir segNum ++ entries)) =
      logDir.records ++ entries := by
  have hold : logDir.records = (logDir.toList.filter fun kv => kv.1 ≠ segNum).flatMap Prod.snd ++
      replaySegment logDir segNum := by
    cases hget : logDir.get? segNum with
    | some chunk =>
      have hsame := toList_insert_of_le h chunk
      rw [insert_get? logDir hget] at hsame
      rw [records, hsame, replaySegment, hget]
      simp
    | none =>
      have hall : (logDir.toList.filter fun kv => kv.1 ≠ segNum) = logDir.toList := by
        rw [filter_eq_self]
        intro kv hkv
        rw [decide_eq_true_eq]
        intro he
        have hsome := (mem_toList logDir kv.1 kv.2).mp hkv
        rw [he, hget] at hsome
        simp at hsome
      rw [hall, records, replaySegment, hget]
      simp
  rw [records, toList_insert_of_le h, hold]
  simp

structure SegmentedLog where
  logDir : Directory
  currentSeg : ℕ
  entryCount : ℕ
  segmentCount : ℕ
  current_mem : currentSeg ∈ logDir.keys
  le_current : ∀ n ∈ logDir.keys, n ≤ currentSeg

namespace SegmentedLog

def maxEntriesPerSegment : ℕ := 100000
def maxSegmentsBeforeCompact : ℕ := 3

theorem le_getLast_keys (logDir : Directory) :
    ∀ n ∈ logDir.keys, n ≤ logDir.keys.getLast?.getD 0 := by
  intro n hn
  have hsorted := logDir.sorted
  rcases eq_nil_or_concat logDir.keys with hnil | ⟨_, last, hkeys⟩
  · rw [hnil] at hn
    exact absurd hn not_mem_nil
  · rw [hkeys, concat_eq_append] at hn hsorted ⊢
    rw [getLast?_concat, Option.getD_some]
    rcases mem_append.mp hn with hinit | hlast
    · exact ((pairwise_append.mp hsorted).2.2 n hinit last mem_cons_self).le
    · exact (mem_singleton.mp hlast).le

def openDir (logDir : Directory) : SegmentedLog × List LogEntry :=
  let segments := logDir.keys
  let currentSeg := segments.getLast?.getD 0
  let chunk := replaySegment logDir currentSeg
  ({  logDir := logDir.insert currentSeg chunk
      currentSeg := currentSeg
      entryCount := chunk.length
      segmentCount := max segments.length 1
      current_mem := (mem_keys_insert ..).mpr (.inl rfl)
      le_current := fun n hn => by
        rcases (mem_keys_insert ..).mp hn with rfl | hn
        · exact le_refl _
        · exact le_getLast_keys logDir n hn },
    logDir.records)

def rotate (log : SegmentedLog) : SegmentedLog where
  logDir := log.logDir.insert (log.currentSeg + 1) []
  currentSeg := log.currentSeg + 1
  entryCount := 0
  segmentCount := log.segmentCount + 1
  current_mem := (mem_keys_insert ..).mpr (.inl rfl)
  le_current := fun n hn => by
    rcases (mem_keys_insert ..).mp hn with rfl | hn
    · exact le_refl _
    · exact Nat.le_succ_of_le (log.le_current n hn)

def writeEntry (log : SegmentedLog) (entry : LogEntry) : SegmentedLog where
  logDir := log.logDir.insert log.currentSeg (replaySegment log.logDir log.currentSeg ++ [entry])
  currentSeg := log.currentSeg
  entryCount := log.entryCount + 1
  segmentCount := log.segmentCount
  current_mem := (mem_keys_insert ..).mpr (.inl rfl)
  le_current := fun n hn => by
    rcases (mem_keys_insert ..).mp hn with rfl | hn
    · exact le_refl _
    · exact log.le_current n hn

def append (log : SegmentedLog) (entry : LogEntry) : SegmentedLog :=
  writeEntry (if maxEntriesPerSegment ≤ log.entryCount then log.rotate else log) entry

def needsCompact (log : SegmentedLog) : Bool := decide (maxSegmentsBeforeCompact < log.segmentCount)

def compactedDir (log : SegmentedLog) (snapshot : List LogEntry) : Directory :=
  log.logDir.keys.foldl OrderedMap.erase
    ((log.logDir.insert (log.currentSeg + 1) snapshot).insert (log.currentSeg + 2) [])

theorem compactedDir_toList (log : SegmentedLog) (snapshot : List LogEntry) :
    (log.compactedDir snapshot).toList =
      [(log.currentSeg + 1, snapshot), (log.currentSeg + 2, [])] := by
  refine (eq_toList (by simp) fun n chunk => ?_).symm
  rw [compactedDir, get?_foldl_erase, get?_insert, get?_insert]
  by_cases hold : n ∈ log.logDir.keys
  · have hle := log.le_current n hold
    simp [hold]
    omega
  · have hnone := (get?_eq_none_iff log.logDir n).mpr hold
    rw [if_neg hold, hnone]
    split_ifs with h2 h1
    · simp [h2, eq_comm]
    · simp [h1, eq_comm]
    · simp [h1, h2]

def compact (log : SegmentedLog) (snapshot : List LogEntry) : SegmentedLog where
  logDir := log.compactedDir snapshot
  currentSeg := log.currentSeg + 2
  entryCount := 0
  segmentCount := 2
  current_mem := by
    rw [← map_fst_toList, compactedDir_toList]
    simp
  le_current := fun n hn => by
    rw [← map_fst_toList, compactedDir_toList] at hn
    simp at hn
    omega

def records (log : SegmentedLog) : List LogEntry := log.logDir.records

theorem records_openDir (logDir : Directory) : (openDir logDir).1.records = logDir.records := by
  have h := Directory.records_insert (le_getLast_keys logDir) []
  rw [append_nil, append_nil] at h
  exact h

section
variable (log : SegmentedLog)
include log

theorem succ_current_not_mem : log.currentSeg + 1 ∉ log.logDir.keys := by
  intro h
  have hle := log.le_current _ h
  omega

theorem records_rotate : log.rotate.records = log.records := by
  have hle : ∀ n ∈ log.logDir.keys, n ≤ log.currentSeg + 1 :=
    fun n hn => Nat.le_succ_of_le (log.le_current n hn)
  have hempty : replaySegment log.logDir (log.currentSeg + 1) = [] := by
    rw [replaySegment, (get?_eq_none_iff ..).mpr log.succ_current_not_mem]
    rfl
  have h := Directory.records_insert hle []
  rw [hempty, append_nil, append_nil] at h
  exact h

theorem records_writeEntry (entry : LogEntry) :
    (log.writeEntry entry).records = log.records ++ [entry] :=
  Directory.records_insert log.le_current [entry]

theorem records_append (entry : LogEntry) :
    (log.append entry).records = log.records ++ [entry] := by
  rw [append, records_writeEntry]
  split_ifs with h
  · rw [records_rotate]
  · rfl

theorem records_compact (snapshot : List LogEntry) :
    (log.compact snapshot).records = snapshot := by
  rw [records, Directory.records, compact, compactedDir_toList]
  simp

end

end SegmentedLog
end Sodp
