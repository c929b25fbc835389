import Sodp.StoreRecovery

/-!
# The log as an image of the map

A map entry may carry a later version than the record it goes back to, because an `apply` that
changes nothing draws a version and leaves no record. A snapshot is an image of the records up to
its version: every entry restates the newest record of its key, and every key with a record has an
entry.
-/

namespace Sodp.StateStore
open StampedLog List Option

def OneValue (l : List LogEntry) : Prop :=
  ∀ r ∈ l, ∀ s ∈ l, r.key = s.key → r.version = s.version → r.value = s.value

/-- The record `r` that a possibly restamped record `x` restates: the newest one
issued for the key up to the stamp of `x`. -/
structure Copies (issued : List LogEntry) (x r : LogEntry) : Prop where
  mem : r ∈ issued
  key : r.key = x.key
  value : r.value = x.value
  le : r.version ≤ x.version
  newest : ∀ s ∈ issued, s.key = x.key → s.version ≤ x.version → s.version ≤ r.version

structure Image (issued : List LogEntry) (version : ℕ) (l : List LogEntry) : Prop where
  le : ∀ x ∈ l, x.version ≤ version
  copies : ∀ x ∈ l, ∃ r, Copies issued x r
  covers : ∀ r ∈ issued, r.version ≤ version → ∃ x ∈ l, x.key = r.key ∧ r.version ≤ x.version

section Issue
variable {issued l : List LogEntry} {x r record : LogEntry} {version : ℕ}

theorem Copies.issue (h : Copies issued x r) (hx : x.version < record.version) :
    Copies (issued ++ [record]) x r := by
  refine ⟨mem_append_left _ h.mem, h.key, h.value, h.le, fun s hs hkey hle => ?_⟩
  rcases mem_append.mp hs with hs | hs
  · exact h.newest s hs hkey hle
  · rw [mem_singleton.mp hs] at hle
    omega

theorem Copies.self (hr : r ∈ issued) : Copies issued r r :=
  ⟨hr, rfl, rfl, le_refl _, fun _ _ _ hle => hle⟩

theorem OneValue.issue (h : OneValue issued) (hold : ∀ r ∈ issued, r.version < record.version) :
    OneValue (issued ++ [record]) := by
  intro r hr q hq hkey heq
  rcases mem_append.mp hr with hr | hr <;> rcases mem_append.mp hq with hq | hq
  · exact h r hr q hq hkey heq
  · have hlt := hold r hr
    rw [mem_singleton.mp hq] at heq
    omega
  · have hlt := hold q hq
    rw [mem_singleton.mp hr] at heq
    omega
  · rw [mem_singleton.mp hr, mem_singleton.mp hq]

theorem Image.issue (h : Image issued version l) (hversion : version < record.version) :
    Image (issued ++ [record]) version l := by
  refine ⟨h.le, fun x hx => ?_, fun s hs hle => ?_⟩
  · obtain ⟨r, hr⟩ := h.copies x hx
    exact ⟨r, hr.issue (lt_of_le_of_lt (h.le x hx) hversion)⟩
  · rcases mem_append.mp hs with hs | hs
    · exact h.covers s hs hle
    · rw [mem_singleton.mp hs] at hle
      omega

end Issue

section Map
variable {s : StateStore} {issued : List LogEntry} {key : String} {newValue : Value}

theorem mem_snapshot_touch {entry : LogEntry} : entry ∈ (s.touch (.apply key newValue)).snapshot ↔
      entry = ⟨s.globalVersion + 1, key, [], newValue⟩ ∨ entry ∈ s.snapshot ∧ entry.key ≠ key := by
  rw [mem_snapshot, mem_snapshot, get_touch]
  by_cases hkey : entry.key = key
  · simp [Call.key, Call.value, hkey]
  · have hne : entry ≠ ⟨s.globalVersion + 1, key, [], newValue⟩ := fun h => hkey (by rw [h])
    simp [Call.key, hkey, hne]

section
variable (h : Image issued s.globalVersion s.snapshot)
include h

theorem Image.newest {x r q : LogEntry}
    (hx : x ∈ s.snapshot) (hr : Copies issued x r) (hq : q ∈ issued)
    (hle : q.version ≤ s.globalVersion) (hkey : q.key = x.key) : q.version ≤ r.version := by
  obtain ⟨y, hy, hykey, hyle⟩ := h.covers q hq hle
  have hxy : y = x := inj_on_of_nodup_map s.snapshot_keys_nodup hy hx (hykey.trans hkey)
  rw [hxy] at hyle
  exact hr.newest q hq hkey hyle

theorem Image.touch_same
    (hle : ∀ r ∈ issued, r.version ≤ s.globalVersion) (hops : s.opsFor key newValue = []) :
    Image issued (s.globalVersion + 1) (s.touch (.apply key newValue)).snapshot := by
  obtain ⟨e, hget, hvalue⟩ := opsFor_eq_nil_iff.mp hops
  have hold : (⟨e.version, key, [], e.value⟩ : LogEntry) ∈ s.snapshot :=
    mem_snapshot.mpr ⟨e, hget, rfl⟩
  refine ⟨fun x hx => ?_, fun x hx => ?_, fun r hr _ => ?_⟩
  · rcases mem_snapshot_touch.mp hx with rfl | ⟨hx, -⟩
    · exact le_refl _
    · exact Nat.le_succ_of_le (h.le x hx)
  · rcases mem_snapshot_touch.mp hx with rfl | ⟨hx, -⟩
    · obtain ⟨r, hr⟩ := h.copies _ hold
      refine ⟨r, hr.mem, hr.key, hr.value.trans hvalue, Nat.le_succ_of_le (hle r hr.mem), ?_⟩
      exact fun q hq hkey _ => h.newest hold hr hq (hle q hq) hkey
    · exact h.copies x hx
  · obtain ⟨x, hx, hkey, hxle⟩ := h.covers r hr (hle r hr)
    by_cases hxkey : x.key = key
    · refine ⟨_, mem_snapshot_touch.mpr (.inl rfl), ?_, Nat.le_succ_of_le (hle r hr)⟩
      exact hxkey.symm.trans hkey
    · exact ⟨x, mem_snapshot_touch.mpr (.inr ⟨hx, hxkey⟩), hkey, hxle⟩

theorem Image.touch_issue {record : LogEntry} (hle : ∀ r ∈ issued, r.version ≤ s.globalVersion)
    (hrecord : s.recordOf (.apply key newValue) = some record) :
    Image (issued ++ [record]) (s.globalVersion + 1) (s.touch (.apply key newValue)).snapshot := by
  obtain ⟨hversion, hkey, -, hvalue⟩ := recordOf_eq_some hrecord
  have hnew : Copies (issued ++ [record]) ⟨s.globalVersion + 1, key, [], newValue⟩ record := by
    refine ⟨mem_append_right _ mem_cons_self, hkey, hvalue, hversion.le, ?_⟩
    intro q _ _ hq
    exact hversion ▸ hq
  refine ⟨fun x hx => ?_, fun x hx => ?_, fun r hr _ => ?_⟩
  · rcases mem_snapshot_touch.mp hx with rfl | ⟨hx, -⟩
    · exact le_refl _
    · exact Nat.le_succ_of_le (h.le x hx)
  · rcases mem_snapshot_touch.mp hx with rfl | ⟨hx, -⟩
    · exact ⟨record, hnew⟩
    · obtain ⟨r, hr⟩ := h.copies x hx
      have hxle := h.le x hx
      exact ⟨r, hr.issue (by omega)⟩
  · have hentry : (⟨s.globalVersion + 1, key, [], newValue⟩ : LogEntry) ∈
        (s.touch (.apply key newValue)).snapshot := mem_snapshot_touch.mpr (.inl rfl)
    rcases mem_append.mp hr with hr | hr
    · obtain ⟨x, hx, hxkey, hxle⟩ := h.covers r hr (hle r hr)
      by_cases hne : x.key = key
      · exact ⟨_, hentry, hne.symm.trans hxkey, Nat.le_succ_of_le (hle r hr)⟩
      · exact ⟨x, mem_snapshot_touch.mpr (.inr ⟨hx, hne⟩), hxkey, hxle⟩
    · rw [mem_singleton.mp hr]
      exact ⟨_, hentry, hkey.symm, hversion.le⟩

end

end Map

theorem image_openDir (logDir : Directory) :
    Image logDir.records (openDir logDir).globalVersion (openDir logDir).snapshot := by
  have hentry : ∀ x ∈ (openDir logDir).snapshot, ∃ r,
      latest LogEntry.key LogEntry.version x.key logDir.records = some r ∧
      x = ⟨r.version, x.key, [], r.value⟩ := by
    intro x hx
    obtain ⟨e, he, hxe⟩ := mem_snapshot.mp hx
    rw [get_openDir, map_eq_some_iff] at he
    obtain ⟨r, hr, rfl⟩ := he
    exact ⟨r, hr, hxe⟩
  refine ⟨fun x hx => ?_, fun x hx => ?_, fun r hr _ => ?_⟩
  · obtain ⟨r, hr, hx⟩ := hentry x hx
    have hle := le_newest LogEntry.version (latest_eq_some LogEntry.key LogEntry.version hr).1
    rw [hx]
    exact hle
  · obtain ⟨r, hr, hx⟩ := hentry x hx
    obtain ⟨hmem, hkey⟩ := latest_eq_some LogEntry.key LogEntry.version hr
    refine ⟨r, hmem, hkey, ?_, ?_,
      fun q hq hqk _ => le_latest LogEntry.key LogEntry.version hr hq hqk⟩ <;> rw [hx]
  · cases hlatest : latest LogEntry.key LogEntry.version r.key logDir.records with
    | none => exact absurd rfl ((latest_eq_none_iff LogEntry.key LogEntry.version).mp hlatest r hr)
    | some q =>
      have hle := le_latest LogEntry.key LogEntry.version hlatest hr rfl
      refine ⟨⟨q.version, r.key, [], q.value⟩,
        mem_snapshot.mpr ⟨⟨q.version, q.value⟩, ?_, rfl⟩, rfl, hle⟩
      rw [get_openDir, hlatest, map_some]

end Sodp.StateStore
