import Sodp.StoreRecovery

/-!
# Versions across restarts

A reopened store continues from the newest version it finds on disk. The counter before the restart
may be ahead of that: a call that writes a value the key already has draws a version and records
nothing, and a compaction drops the record of a deletion.
-/

namespace Sodp.StateStore
open Delta StampedLog List Option

def returned : StateStore → List StoreEvent → List (ℕ × List DeltaOp)
  | _, [] => []
  | s, event :: events => (s.handle event).2.toList ++ returned (s.handle event).1 events

def versions (s : StateStore) (events : List StoreEvent) : List ℕ :=
  (s.returned events).map Prod.fst

def handleAll (s : StateStore) (events : List StoreEvent) : StateStore :=
  events.foldl (fun s event => (s.handle event).1) s

theorem versions_cons (s : StateStore) (event : StoreEvent) (events : List StoreEvent) :
    s.versions (event :: events) =
      (s.handle event).2.toList.map Prod.fst ++ (s.handle event).1.versions events := by
  rw [versions, returned, map_append, versions]

theorem versions_append (s : StateStore) (before after : List StoreEvent) :
    s.versions (before ++ after) = s.versions before ++ (s.handleAll before).versions after := by
  induction before generalizing s with
  | nil => rfl
  | cons event before ih =>
    rw [cons_append, versions_cons, versions_cons, ih, append_assoc]
    rfl

theorem Persisted.handleAll {s : StateStore} (h : Persisted s) (events : List StoreEvent) :
    Persisted (s.handleAll events) := by
  induction events generalizing s with
  | nil => exact h
  | cons event events ih => exact ih (h.handle event)

/-- The newest version issued is that of a record on disk. -/
def NewestRecorded (s : StateStore) : Prop :=
  s.globalVersion = 0 ∨ ∃ entry ∈ s.records, entry.version = s.globalVersion

variable {events : List StoreEvent}

section Restart
variable {s : StateStore}

theorem Persisted.newest_le (h : Persisted s) :
    newest LogEntry.version s.records ≤ s.globalVersion := by
  by_cases hzero : newest LogEntry.version s.records = 0
  · omega
  · obtain ⟨entry, hmem, hver⟩ := newest_mem LogEntry.version hzero
    rw [← hver]
    exact h.record_le entry hmem

theorem Persisted.newest_eq_iff (h : Persisted s) :
    newest LogEntry.version s.records = s.globalVersion ↔ NewestRecorded s := by
  constructor
  · intro heq
    by_cases hzero : newest LogEntry.version s.records = 0
    · exact .inl (heq ▸ hzero)
    · obtain ⟨entry, hmem, hver⟩ := newest_mem LogEntry.version hzero
      exact .inr ⟨entry, hmem, hver.trans heq⟩
  · intro hnew
    have hle := h.newest_le
    rcases hnew with hzero | ⟨entry, hmem, hver⟩
    · omega
    · have := le_newest LogEntry.version hmem
      omega

theorem Persisted.globalVersion_handle_le (h : Persisted s) (event : StoreEvent) :
    (s.handle event).2 = none → (s.handle event).1.globalVersion ≤ s.globalVersion := by
  cases event with
  | call c =>
    intro hnone
    change (s.exec c).2 = none at hnone
    change (s.exec c).1.globalVersion ≤ _
    rw [globalVersion_exec, hnone]
    exact le_refl _
  | compact => exact fun _ => le_refl _
  | reopen =>
    intro _
    change s.reopen.globalVersion ≤ _
    rw [globalVersion_reopen]
    exact h.newest_le

theorem version_handle {event : StoreEvent} {version : ℕ} {ops : List DeltaOp}
    (h : (s.handle event).2 = some (version, ops)) :
    version = s.globalVersion + 1 ∧ (s.handle event).1.globalVersion = version := by
  cases event with
  | call c =>
    refine ⟨version_exec h, ?_⟩
    change (s.exec c).2 = _ at h
    change (s.exec c).1.globalVersion = _
    rw [globalVersion_exec, h]
    rfl
  | compact | reopen => simp [handle] at h

theorem Persisted.head_versions_le (h : Persisted s) {version : ℕ}
    (hv : (s.versions events).head? = some version) : version ≤ s.globalVersion + 1 := by
  induction events generalizing s with
  | nil => simp [versions, returned] at hv
  | cons event events ih =>
    rw [versions_cons] at hv
    cases hres : (s.handle event).2 with
    | some r =>
      obtain ⟨w, _⟩ := r
      rw [hres] at hv
      simp only [toList_some, map_cons, cons_append, head?_cons, some.injEq] at hv
      rw [← hv, (version_handle hres).1]
    | none =>
      rw [hres] at hv
      have hle := h.globalVersion_handle_le event hres
      have hhead := ih (h.handle event) hv
      omega

end Restart

structure Issued (s : StateStore) (issued : List ℕ) : Prop where
  global : s.globalVersion = 0 ∨ s.globalVersion ∈ issued
  record : ∀ entry ∈ s.records, entry.version ∈ issued
  entry : ∀ k e, s.get k = some e → e.version ∈ issued

section Issued
variable {s : StateStore} {issued : List ℕ}

theorem Issued.mono {more : List ℕ} (h : Issued s issued) (hsub : issued ⊆ more) : Issued s more :=
  ⟨h.global.imp_right fun hg => hsub hg, fun entry he => hsub (h.record entry he),
    fun k e he => hsub (h.entry k e he)⟩

theorem Issued.snapshot_mem (h : ∀ k e, s.get k = some e → e.version ∈ issued) :
    ∀ entry ∈ s.snapshot, entry.version ∈ issued := by
  intro entry hentry
  obtain ⟨e, he, heq⟩ := mem_snapshot.mp hentry
  rw [heq]
  exact h _ e he

theorem exec_returns (s : StateStore) (c : Call) :
    s.exec c = (s, none) ∨ ∃ ops, (s.exec c).2 = some (s.globalVersion + 1, ops) := by
  rcases exec_cases s c with ⟨entry, h⟩ | ⟨key, _, rfl, h⟩ | ⟨key, rfl, h⟩
  · right
    rw [exec_of_record h, (recordOf_eq_some h).1]
    exact ⟨entry.ops, rfl⟩
  · right
    rw [exec_apply_same h]
    exact ⟨[], rfl⟩
  · left
    exact exec_delete_absent h

theorem Issued.exec (hp : Persisted s) (h : Issued s issued) (c : Call) :
    Issued (s.exec c).1 (issued ++ (s.exec c).2.toList.map Prod.fst) := by
  rcases exec_returns s c with hsame | ⟨_, hret⟩
  · rw [hsame]
    simpa using h
  · have hnew : s.globalVersion + 1 ∈ issued ++ (s.exec c).2.toList.map Prod.fst := by
      rw [hret]
      simp
    have hentry : ∀ k e, (s.exec c).1.get k = some e →
        e.version ∈ issued ++ (s.exec c).2.toList.map Prod.fst := by
      intro k e he
      rw [get_exec, get_touch] at he
      split_ifs at he with hk
      · obtain ⟨v, -, rfl⟩ := map_eq_some_iff.mp he
        exact hnew
      · exact mem_append_left _ (h.entry k e he)
    refine ⟨.inr ?_, ?_, hentry⟩
    · rw [globalVersion_exec, hret]
      exact mem_append_right _ mem_cons_self
    · intro r hr
      cases hrec : s.recordOf c with
      | none =>
        rw [records_exec_of_none hrec] at hr
        exact mem_append_left _ (h.record r hr)
      | some =>
        obtain ⟨_, hplog⟩ := hp.persistent
        rw [records_exec_of_record hplog hrec] at hr
        split_ifs at hr with hcompact
        · exact Issued.snapshot_mem hentry r hr
        · rcases mem_append.mp hr with hr | hr
          · exact mem_append_left _ (h.record r hr)
          · rw [mem_singleton.mp hr, (recordOf_eq_some hrec).1]
            exact hnew

theorem Issued.handle (hp : Persisted s) (h : Issued s issued) (event : StoreEvent) :
    Issued (s.handle event).1 (issued ++ (s.handle event).2.toList.map Prod.fst) := by
  cases event with
  | call c => exact h.exec hp c
  | compact =>
    refine Issued.mono ⟨h.global, ?_, h.entry⟩ (subset_append_left _ _)
    obtain ⟨_, hplog⟩ := hp.persistent
    intro r hr
    change r ∈ s.compactPlog.records at hr
    rw [records_compactPlog hplog] at hr
    exact Issued.snapshot_mem h.entry r hr
  | reopen =>
    refine Issued.mono ⟨?_, ?_, ?_⟩ (subset_append_left _ _)
    · change s.reopen.globalVersion = 0 ∨ s.reopen.globalVersion ∈ issued
      rw [globalVersion_reopen]
      by_cases hzero : newest LogEntry.version s.records = 0
      · exact .inl hzero
      · obtain ⟨entry, hmem, hver⟩ := newest_mem LogEntry.version hzero
        exact .inr (hver ▸ h.record entry hmem)
    · intro r hr
      change r ∈ s.reopen.records at hr
      rw [records_reopen] at hr
      exact h.record r hr
    · intro k e he
      change s.reopen.get k = some e at he
      rw [get_reopen, map_eq_some_iff] at he
      obtain ⟨entry, hlast, rfl⟩ := he
      exact h.record entry (latest_eq_some LogEntry.key LogEntry.version hlast).1

theorem Issued.handleAll (hp : Persisted s) (h : Issued s issued) (events : List StoreEvent) :
    Issued (s.handleAll events) (issued ++ s.versions events) := by
  induction events generalizing s issued with
  | nil => simpa [versions, returned, StateStore.handleAll] using h
  | cons event events ih =>
    have hrest := ih (hp.handle event) (h.handle hp event)
    rw [append_assoc, ← versions_cons] at hrest
    exact hrest

end Issued

theorem issued_empty : Issued (openDir .empty) [] := by
  refine ⟨.inl rfl, ?_, ?_⟩
  · intro entry h
    exact absurd h not_mem_nil
  · intro k e he
    simp [get_openDir_empty] at he

theorem versions_increasing {s : StateStore} {issued : List ℕ}
    (hp : Persisted s) (hsorted : issued.Pairwise (· < ·)) (hle : ∀ v ∈ issued, v ≤ s.globalVersion)
    (h : ∀ before after, events = before ++ .reopen :: after →
      (s.handleAll before).reopen.versions after ≠ [] → NewestRecorded (s.handleAll before)) :
    (issued ++ s.versions events).Pairwise (· < ·) := by
  induction events generalizing s issued with
  | nil => simpa [versions, returned] using hsorted
  | cons event events ih =>
    have hrest : ∀ before after, events = before ++ .reopen :: after →
        ((s.handle event).1.handleAll before).reopen.versions after ≠ [] →
        NewestRecorded ((s.handle event).1.handleAll before) := by
      intro before after he hne
      exact h (event :: before) after (by rw [he]; rfl) hne
    rw [versions_cons, ← append_assoc]
    cases hres : (s.handle event).2 with
    | some r =>
      obtain ⟨_, _⟩ := r
      obtain ⟨_, hglobal⟩ := version_handle hres
      refine ih (hp.handle event) ?_ ?_ hrest
      · rw [pairwise_append]
        refine ⟨hsorted, by simp, fun a ha b hb => ?_⟩
        have ha := hle a ha
        simp only [toList_some, map_cons, map_nil, mem_singleton] at hb
        omega
      · intro v hv
        rw [hglobal]
        rcases mem_append.mp hv with hv | hv
        · have hv := hle v hv
          omega
        · simp only [toList_some, map_cons, map_nil, mem_singleton] at hv
          omega
    | none =>
      by_cases hquiet : (s.handle event).1.versions events = []
      · rw [hquiet]
        simpa using hsorted
      · refine ih (hp.handle event) (by simpa using hsorted) ?_ hrest
        intro v hv
        have hv := hle v (by simpa using hv)
        have hglobal : (s.handle event).1.globalVersion = s.globalVersion := by
          cases event with
          | call c =>
            change (s.exec c).2 = none at hres
            change (s.exec c).1.globalVersion = _
            rw [globalVersion_exec, hres]
            rfl
          | compact => rfl
          | reopen =>
            change s.reopen.globalVersion = _
            rw [globalVersion_reopen, hp.newest_eq_iff]
            exact h [] events rfl hquiet
        omega

/-- Versions are issued in strictly increasing order over a run with restarts
exactly when each restart that is followed by an issued version finds the newest
version on disk. -/
theorem versions_increasing_iff (events : List StoreEvent) :
    ((openDir .empty).versions events).Pairwise (· < ·) ↔
      ∀ before after, events = before ++ .reopen :: after →
        ((openDir .empty).handleAll before).reopen.versions after ≠ [] →
        NewestRecorded ((openDir .empty).handleAll before) := by
  constructor
  · intro hsorted before after he hne
    have hp := persisted_empty.handleAll before
    rw [← hp.newest_eq_iff]
    by_contra hnew
    have hlt := lt_of_le_of_ne hp.newest_le hnew
    have hissued := (issued_empty.handleAll persisted_empty before).global
    rw [he, versions_append, versions_cons, pairwise_append] at hsorted
    obtain ⟨first, _, hfirst⟩ := exists_cons_of_ne_nil hne
    have hhead := hp.reopen.head_versions_le (by rw [hfirst]; rfl)
    rw [globalVersion_reopen] at hhead
    rcases hissued with hzero | hmem
    · omega
    · have hbefore := hsorted.2.2 _ hmem first (by
        change first ∈ ((openDir .empty).handleAll before).reopen.versions after
        rw [hfirst]
        exact mem_cons_self)
      omega
  · intro h
    exact versions_increasing persisted_empty List.Pairwise.nil (by simp) h

/-- A write that changes nothing draws version 2, and the store issues it again
after a restart. -/
theorem versions_reissued :
    (openDir .empty).versions [.call (.apply "k" .null), .call (.apply "k" .null), .reopen,
      .call (.apply "k" (.bool true))] = [1, 2, 2] ∧
    ¬ ((openDir .empty).versions [.call (.apply "k" .null), .call (.apply "k" .null), .reopen,
      .call (.apply "k" (.bool true))]).Pairwise (· < ·) := by
  decide +kernel

end Sodp.StateStore
