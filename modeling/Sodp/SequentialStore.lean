import Sodp.DeltaHistory

/-!
# The store as a map with its history

Called by one client after another, the store is a map and the list of all it has
issued: every call but the deletion of an absent key puts one entry at the end of
the list, under the next version. The counter is the length of the list, and the
delta log of a key is the end of the part of the list that concerns the key and
says something.
-/

namespace Sodp.StateStore
open Delta DeltaLog StampedLog Function List Option

def issue (s : StateStore) (c : Call) : List (String × ℕ × List DeltaOp) :=
  ((s.exec c).2.map fun r => (c.key, r)).toList

def issuedBy : StateStore → List Call → List (String × ℕ × List DeltaOp)
  | _, [] => []
  | s, c :: calls => s.issue c ++ issuedBy (s.exec c).1 calls

theorem issuedBy_append (s : StateStore) (calls more : List Call) :
    issuedBy s (calls ++ more) = issuedBy s calls ++ issuedBy (s.execAll calls) more := by
  induction calls generalizing s with
  | nil => rfl
  | cons c calls ih =>
    rw [cons_append, issuedBy, ih, issuedBy, append_assoc]
    rfl

structure History where
  content : String → Option Value
  issued : List (String × ℕ × List DeltaOp)

namespace History

def start : History := ⟨fun _ => none, []⟩

def record (h : History) (c : Call) : History :=
  if c.value = none ∧ h.content c.key = none then h
  else
    { content := update h.content c.key c.value
      issued := h.issued ++
        [(c.key, h.issued.length + 1, stepOps (h.content c.key) c.value)] }

def recordAll (h : History) (calls : List Call) : History := calls.foldl record h

def deltasOf (h : History) (key : String) : List (ℕ × List DeltaOp) :=
  (h.issued.filter fun d => d.1 = key ∧ d.2.2 ≠ []).map Prod.snd

end History

structure Refines (s : StateStore) (h : History) : Prop where
  content : ∀ k, (s.get k).map StateEntry.value = h.content k
  versions : h.issued.map (fun d => d.2.1) = List.range' 1 h.issued.length
  counter : s.globalVersion = h.issued.length
  entry_le : ∀ k e, s.get k = some e → e.version ≤ s.globalVersion
  held : ∀ k, s.log.held k = (h.deltasOf k).rtake maxDeltaLogEntriesPerKey
  sorted : ∀ k, (s.log.held k).Pairwise fun a b => a.1 < b.1
  held_le : ∀ k, ∀ d ∈ s.log.held k, d.1 ≤ s.globalVersion
  last_le : ∀ k e, s.get k = some e → ∀ d ∈ s.log.held k, d.1 ≤ e.version

variable {k : String}

section Step
variable {s : StateStore} {h : History} {c : Call}

theorem exec_result (s : StateStore) (c : Call) :
    (c.value = none ∧ s.get c.key = none ∧ s.exec c = (s, none)) ∨
    (¬ (c.value = none ∧ s.get c.key = none) ∧ (s.exec c).2 =
      some (s.globalVersion + 1, stepOps ((s.get c.key).map StateEntry.value) c.value)) := by
  rcases exec_cases s c with ⟨entry, he⟩ | ⟨key, _, rfl, he⟩ | ⟨key, rfl, he⟩
  · have hresult : (s.exec c).2 = some (entry.version, entry.ops) := by rw [exec_of_record he]
    refine .inr ⟨?_, ?_⟩
    · rintro ⟨hvalue, hget⟩
      cases c with
      | apply => simp [Call.value] at hvalue
      | delete key => simp [recordOf, show s.get key = none from hget] at he
    · rw [hresult, (recordOf_eq_some he).1, ← opsOf_eq_stepOps, opsOf_of_result hresult]
  · refine .inr ⟨by simp [Call.value], ?_⟩
    rw [exec_apply_same he, ← opsOf_eq_stepOps, opsOf, exec_apply_same he]
    rfl
  · exact .inl ⟨rfl, he, exec_delete_absent he⟩

variable {ops : List DeltaOp}

theorem held_exec {version : ℕ} (hresult : (s.exec c).2 = some (version, ops))
    (k : String) : (s.exec c).1.log.held k =
      if c.key = k ∧ ops ≠ [] then (s.log.held k ++ [(version, ops)]).rtake maxDeltaLogEntriesPerKey
      else s.log.held k := by
  cases hrecord : s.recordOf c with
  | none =>
    have hops : ops = [] := by
      have hdelta : deltaOf c.key s c = [] := deltaOf_of_none hrecord
      rw [deltaOf, if_pos rfl, hresult] at hdelta
      simpa using hdelta
    rw [(exec_of_none hrecord).1, if_neg (by simp [hops])]
  | some =>
    obtain ⟨-, hkey, hops, -⟩ := recordOf_eq_some hrecord
    rw [exec_of_record hrecord, some.injEq, Prod.mk.injEq] at hresult
    rw [held_exec_of_record hrecord, hkey, ← hresult.1, ← hresult.2]
    simp [hops]

theorem mem_issue {d : String × ℕ × List DeltaOp} :
    d ∈ s.issue c ↔ d.1 = c.key ∧ (s.exec c).2 = some d.2 := by
  obtain ⟨k, r⟩ := d
  rw [issue, mem_toList, map_eq_some_iff]
  constructor
  · rintro ⟨_, hr', hd⟩
    obtain ⟨rfl, rfl⟩ := Prod.mk.inj hd
    exact ⟨rfl, hr'⟩
  · rintro ⟨rfl, hr⟩
    exact ⟨r, hr, rfl⟩

theorem mem_held_exec {d : ℕ × List DeltaOp} (hd : d ∈ (s.exec c).1.log.held k) :
    d ∈ s.log.held k ∨ (k, d) ∈ s.issue c := by
  rcases exec_result s c with ⟨-, -, hexec⟩ | ⟨-, hresult⟩
  · rw [hexec] at hd
    exact .inl hd
  · rw [held_exec hresult] at hd
    split_ifs at hd with hk
    · rcases mem_append.mp (mem_of_mem_drop hd) with hd | hd
      · exact .inl hd
      · rw [mem_singleton.mp hd]
        exact .inr (mem_issue.mpr ⟨hk.1.symm, hresult⟩)
    · exact .inl hd

theorem get_exec_of_result {version : ℕ}
    (hresult : (s.exec c).2 = some (version, ops)) (k : String) :
    (s.exec c).1.get k = if k = c.key then c.value.map (StateEntry.mk version) else s.get k := by
  rw [get_exec, get_touch, version_exec hresult]

theorem History.record_eq (h : History) (hpresent : ¬ (c.value = none ∧ h.content c.key = none)) :
    h.record c = ⟨update h.content c.key c.value, h.issued ++
      [(c.key, h.issued.length + 1, stepOps (h.content c.key) c.value)]⟩ := if_neg hpresent

theorem History.deltasOf_record (h : History)
    (hpresent : ¬ (c.value = none ∧ h.content c.key = none)) :
    (h.record c).deltasOf k = h.deltasOf k ++
      if c.key = k ∧ stepOps (h.content c.key) c.value ≠ [] then
        [(h.issued.length + 1, stepOps (h.content c.key) c.value)] else [] := by
  rw [deltasOf, h.record_eq hpresent, filter_append, map_append, deltasOf]
  congr 1
  by_cases hk : c.key = k ∧ stepOps (h.content c.key) c.value ≠ []
  · rw [if_pos hk, filter_singleton, decide_eq_true (by exact hk)]
    rfl
  · rw [if_neg hk, filter_singleton, decide_eq_false (by exact hk)]
    rfl

theorem Refines.record_cases (hr : Refines s h) (c : Call) :
    (s.exec c = (s, none) ∧ h.record c = h) ∨ (¬ (c.value = none ∧ h.content c.key = none) ∧
      (s.exec c).2 = some (s.globalVersion + 1, stepOps (h.content c.key) c.value)) := by
  have hcontent := hr.content c.key
  rcases exec_result s c with ⟨hvalue, hget, hexec⟩ | ⟨hpresent, hresult⟩
  · rw [hget, map_none] at hcontent
    exact .inl ⟨hexec, if_pos ⟨hvalue, hcontent.symm⟩⟩
  · rw [hcontent] at hresult
    refine .inr ⟨?_, hresult⟩
    rw [← hcontent, map_eq_none_iff]
    exact hpresent

theorem Refines.exec (hr : Refines s h) (c : Call) : Refines (s.exec c).1 (h.record c) := by
  rcases hr.record_cases c with ⟨hexec, hrecord⟩ | ⟨hpresent, hresult⟩
  · rw [hexec, hrecord]
    exact hr
  · have hglobal : (s.exec c).1.globalVersion = s.globalVersion + 1 := by
      rw [globalVersion_exec, hresult]
      rfl
    have hissued : (h.record c).issued = h.issued ++
        [(c.key, h.issued.length + 1, stepOps (h.content c.key) c.value)] := by
      rw [h.record_eq hpresent]
    have hheld := held_exec hresult
    have hget := get_exec_of_result hresult
    have hnew : ∀ k, ∀ d ∈ (s.exec c).1.log.held k,
        d ∈ s.log.held k ∨ (c.key = k ∧ d.1 = s.globalVersion + 1) := by
      intro k d hd
      refine (mem_held_exec hd).imp_right fun hd => ?_
      rw [mem_issue, hresult, some.injEq] at hd
      exact ⟨hd.1.symm, (congrArg Prod.fst hd.2).symm⟩
    refine ⟨fun k => ?_, ?_, ?_, fun k e he => ?_, fun k => ?_, fun k => ?_, fun k d hd => ?_,
      fun k e he d hd => ?_⟩
    · rw [content_exec, h.record_eq hpresent, hr.content]
      exact (update_apply ..).symm
    · rw [hissued, map_append, hr.versions, length_append, length_singleton, range'_concat]
      simp [Nat.add_comm]
    · rw [hglobal, hissued, hr.counter, length_append, length_singleton]
    · rw [hget] at he
      rw [hglobal]
      split_ifs at he
      · obtain ⟨v, -, rfl⟩ := map_eq_some_iff.mp he
        exact le_refl _
      · exact Nat.le_succ_of_le (hr.entry_le k e he)
    · rw [hheld, History.deltasOf_record h hpresent, hr.counter, hr.held]
      split_ifs with hk
      · exact rtake_append_rtake ..
      · rw [append_nil]
    · rw [hheld]
      split_ifs with hk
      · refine List.Pairwise.sublist (drop_sublist _ _) ?_
        rw [pairwise_append]
        refine ⟨hr.sorted k, pairwise_singleton _ _, fun a ha b hb => ?_⟩
        rw [mem_singleton.mp hb]
        exact Nat.lt_succ_of_le (hr.held_le k a ha)
      · exact hr.sorted k
    · rw [hglobal]
      rcases hnew k d hd with hd | ⟨-, hd⟩
      · exact Nat.le_succ_of_le (hr.held_le k d hd)
      · exact hd.le
    · rw [hget] at he
      split_ifs at he with hk
      · obtain ⟨v, -, rfl⟩ := map_eq_some_iff.mp he
        rcases hnew k d hd with hd | ⟨-, hd⟩
        · exact Nat.le_succ_of_le (hr.held_le k d hd)
        · exact hd.le
      · rcases hnew k d hd with hd | ⟨hck, -⟩
        · exact hr.last_le k e he d hd
        · exact absurd hck.symm hk

theorem Refines.issue_eq (hr : Refines s h) (c : Call) :
    (h.record c).issued = h.issued ++ s.issue c := by
  rcases hr.record_cases c with ⟨hexec, hrecord⟩ | ⟨hpresent, hresult⟩
  · rw [issue, hexec, hrecord]
    exact (append_nil _).symm
  · rw [issue, hresult, h.record_eq hpresent, hr.counter]
    rfl

end Step

theorem refines_new : Refines new History.start := by
  refine ⟨fun k => ?_, rfl, rfl, ?_, fun k => ?_, fun k => ?_, ?_, ?_⟩ <;>
    simp [new, StateStore.get, History.start, History.deltasOf]

/-- After any calls the store refines the map they build and the history of what they
returned; the content of a key is what the last call on it left. -/
theorem store_refines_history (calls : List Call) :
    Refines (new.execAll calls) (History.start.recordAll calls) ∧
    (History.start.recordAll calls).issued = issuedBy new calls ∧
    ∀ k, (History.start.recordAll calls).content k = (lastOf Call.key k calls).bind Call.value := by
  have hrefines : Refines (new.execAll calls) (History.start.recordAll calls) ∧
      (History.start.recordAll calls).issued = issuedBy new calls := by
    induction calls using List.reverseRecOn with
    | nil => exact ⟨refines_new, rfl⟩
    | append_singleton calls c ih =>
      have hstore : new.execAll (calls ++ [c]) = ((new.execAll calls).exec c).1 := by
        simp [execAll]
      have hhistory : History.start.recordAll (calls ++ [c]) =
          (History.start.recordAll calls).record c := by
        simp [History.recordAll]
      rw [hstore, hhistory, issuedBy_append, ih.1.issue_eq, ih.2]
      exact ⟨ih.1.exec c, by simp [issuedBy]⟩
  refine ⟨hrefines.1, hrefines.2, fun k => ?_⟩
  rw [← hrefines.1.content, get_execAll]
  cases lastOf Call.key k calls with
  | none | some c => rfl

/-! ### Starting from any store -/

variable {s : StateStore} {calls : List Call} {d : String × ℕ × List DeltaOp}

theorem mem_held_execAll {d : ℕ × List DeltaOp}
    (hd : d ∈ (s.execAll calls).log.held k) : d ∈ s.log.held k ∨ (k, d) ∈ s.issuedBy calls := by
  induction calls generalizing s with
  | nil => exact .inl hd
  | cons c calls ih =>
    rw [issuedBy, mem_append]
    rcases ih (s := (s.exec c).1) hd with hd | hd
    · exact (mem_held_exec hd).imp_right Or.inl
    · exact .inr (.inr hd)

theorem version_of_mem_issue {c : Call} (hd : d ∈ s.issue c) :
    d.2.1 = s.globalVersion + 1 ∧ (s.exec c).1.globalVersion = s.globalVersion + 1 := by
  have hresult := (mem_issue.mp hd).2
  refine ⟨version_exec hresult, ?_⟩
  rw [globalVersion_exec, hresult]
  exact version_exec hresult

theorem globalVersion_lt_of_mem_issuedBy (hd : d ∈ s.issuedBy calls) : s.globalVersion < d.2.1 := by
  induction calls generalizing s with
  | nil => cases hd
  | cons c calls ih =>
    rcases mem_append.mp hd with hd | hd
    · rw [(version_of_mem_issue hd).1]
      exact Nat.lt_succ_self _
    · exact Nat.lt_of_le_of_lt (globalVersion_le_exec s c) (ih hd)

theorem issuedBy_version_unique {d' : String × ℕ × List DeltaOp} (hd : d ∈ s.issuedBy calls)
    (hd' : d' ∈ s.issuedBy calls) (hversion : d.2.1 = d'.2.1) : d = d' := by
  induction calls generalizing s with
  | nil => cases hd
  | cons c calls ih =>
    have hlater : ∀ {a b}, a ∈ s.issue c → b ∈ issuedBy (s.exec c).1 calls → a.2.1 ≠ b.2.1 := by
      intro a b ha hb
      obtain ⟨hversion, _⟩ := version_of_mem_issue ha
      have hb' := globalVersion_lt_of_mem_issuedBy hb
      omega
    rcases mem_append.mp hd with hd | hd <;> rcases mem_append.mp hd' with hd' | hd'
    · obtain ⟨hkey, hresult⟩ := mem_issue.mp hd
      obtain ⟨hkey', hresult'⟩ := mem_issue.mp hd'
      rw [hresult, some.injEq] at hresult'
      exact Prod.ext (hkey.trans hkey'.symm) hresult'
    · exact absurd hversion (hlater hd hd')
    · exact absurd hversion.symm (hlater hd' hd)
    · exact ih hd hd'

/-- No version in the delta log is that of two keys, and none is still to be issued. -/
structure KeyedVersions (s : StateStore) : Prop where
  keyed : ∀ k j, ∀ d ∈ s.log.held k, ∀ d' ∈ s.log.held j, d.1 = d'.1 → k = j
  bounded : ∀ k, ∀ d ∈ s.log.held k, d.1 ≤ s.globalVersion

theorem keyedVersions_new : KeyedVersions new := ⟨by simp [new], by simp [new]⟩

theorem KeyedVersions.key_unique (h : KeyedVersions s) {j : String} {d d' : ℕ × List DeltaOp}
    (hd : d ∈ s.log.held k ∨ (k, d) ∈ s.issuedBy calls)
    (hd' : d' ∈ s.log.held j ∨ (j, d') ∈ s.issuedBy calls) (hversion : d.1 = d'.1) : k = j := by
  rcases hd with hd | hd <;> rcases hd' with hd' | hd'
  · exact h.keyed k j d hd d' hd' hversion
  · have hold := h.bounded k d hd
    have hnew := globalVersion_lt_of_mem_issuedBy hd'
    dsimp only at hnew
    omega
  · have hold := h.bounded j d' hd'
    have hnew := globalVersion_lt_of_mem_issuedBy hd
    dsimp only at hnew
    omega
  · exact congrArg Prod.fst (issuedBy_version_unique hd hd' hversion)

theorem KeyedVersions.exec (h : KeyedVersions s) (c : Call) : KeyedVersions (s.exec c).1 where
  keyed k j d hd d' hd' hversion := by
    have hissued : ∀ k, ∀ d ∈ (s.exec c).1.log.held k,
        d ∈ s.log.held k ∨ (k, d) ∈ s.issuedBy [c] := fun _ _ hd => mem_held_execAll hd
    exact h.key_unique (hissued k d hd) (hissued j d' hd') hversion
  bounded k d hd := by
    rcases mem_held_exec hd with hd | hd
    · exact (h.bounded k d hd).trans (globalVersion_le_exec s c)
    · obtain ⟨hversion, hglobal⟩ := version_of_mem_issue hd
      exact (hversion.trans hglobal.symm).le

theorem KeyedVersions.execAll (h : KeyedVersions s) (calls : List Call) :
    KeyedVersions (s.execAll calls) := by
  induction calls generalizing s with
  | nil => exact h
  | cons c calls ih => exact ih (h.exec c)

end Sodp.StateStore
