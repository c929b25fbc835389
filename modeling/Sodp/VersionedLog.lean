import Mathlib.Data.List.Induction
import Mathlib.Data.Nat.Basic
import Mathlib.Tactic.Common

/-!
# Replaying a log of versioned changes

A log of one key: values set and deleted, each change with its version. Replay keeps the value with
the greatest version so far. A deletion takes the value away if it is not newer than the deletion,
and leaves nothing behind. So a value that comes after a newer deletion is back.
-/

namespace Sodp.VersionedLog
open List Option

inductive Change (α : Type*) where
  | set (version : ℕ) (value : α)
  | delete (version : ℕ)

variable {α : Type*}

namespace Change

def version : Change α → ℕ
  | .set version _ | .delete version => version

def entry? : Change α → Option (ℕ × α)
  | .set version value => some (version, value)
  | .delete _ => none

def erases : Change α → ℕ → Bool
  | .set _ _, _ => false
  | .delete deleted, version => version ≤ deleted

end Change

def load : Option (ℕ × α) → Change α → Option (ℕ × α)
  | cur, .set version value =>
    if (cur.map Prod.fst).getD 0 < version then some (version, value) else cur
  | cur, .delete version => cur.filter fun e => version < e.1

theorem load_delete (e : ℕ × α) (version : ℕ) :
    load (some e) (.delete version) = if e.1 ≤ version then none else some e := by
  rw [load, filter_some]
  split_ifs with hlt hle hle
  · exact absurd (of_decide_eq_true hlt) (not_lt.mpr hle)
  · rfl
  · rfl
  · exact absurd (decide_eq_true (not_le.mp hle)) hlt

variable {c : Change α} {log : List (Change α)} {e : ℕ × α}

theorem load_of_newer {cur : Option (ℕ × α)} (h : (cur.map Prod.fst).getD 0 < c.version) :
    load cur c = c.entry? := by
  cases c with
  | set => exact if_pos h
  | delete version =>
    cases cur with
    | none => rfl
    | some e => exact (load_delete e version).trans (if_pos (le_of_lt h))

def replay (cur : Option (ℕ × α)) (log : List (Change α)) : Option (ℕ × α) := log.foldl load cur

def covers (log : List (Change α)) (version : ℕ) : Bool := log.any fun c => c.erases version

def live : List (Change α) → List (ℕ × α)
  | [] => []
  | .set version value :: log =>
    if 0 < version ∧ covers log version = false then (version, value) :: live log else live log
  | .delete _ :: log => live log

theorem covers_append (xs ys : List (Change α)) (version : ℕ) :
    covers (xs ++ ys) version = (covers xs version || covers ys version) := any_append

theorem live_append (xs ys : List (Change α)) :
    live (xs ++ ys) = (live xs).filter (fun e => !covers ys e.1) ++ live ys := by
  induction xs with
  | nil => rfl
  | cons c xs ih =>
    cases c with
    | delete => exact ih
    | set version =>
      rw [cons_append, live, live, covers_append, ih]
      cases hxs : covers xs version with
      | true => simp
      | false =>
        by_cases hpos : 0 < version
        · cases hys : covers ys version with
          | true => simp [hpos, hys]
          | false => simp [hpos, hys]
        · simp [hpos]

theorem live_concat_set (log : List (Change α)) {version : ℕ} (hpos : 0 < version) (value : α) :
    live (log ++ [.set version value]) = live log ++ [(version, value)] := by
  rw [live_append]
  congr 1
  · exact filter_eq_self.mpr fun e _ => rfl
  · rw [live, if_pos ⟨hpos, rfl⟩]
    rfl

theorem live_concat_zero (log : List (Change α)) (value : α) :
    live (log ++ [.set 0 value]) = live log := by
  rw [live_append]
  have hzero : live [.set 0 value] = ([] : List (ℕ × α)) := rfl
  rw [hzero, append_nil]
  exact filter_eq_self.mpr fun e _ => rfl

theorem live_concat_delete (log : List (Change α)) (version : ℕ) :
    live (log ++ [.delete version]) = (live log).filter fun e => version < e.1 := by
  rw [live_append]
  change _ ++ [] = _
  rw [append_nil]
  refine filter_congr fun e _ => ?_
  simp [covers, Change.erases, ← decide_not]

theorem mem_live_concat (h : e ∈ live (log ++ [c])) :
    (e ∈ live log ∧ ∀ version, c = .delete version → version < e.1) ∨ c = .set e.1 e.2 := by
  cases c with
  | delete =>
    rw [live_concat_delete, mem_filter, decide_eq_true_eq] at h
    refine .inl ⟨h.1, fun v hv => ?_⟩
    cases hv
    exact h.2
  | set version =>
    rcases Nat.eq_zero_or_pos version with rfl | hpos
    · rw [live_concat_zero] at h
      exact .inl ⟨h, nofun⟩
    · rw [live_concat_set _ hpos, mem_append, mem_singleton] at h
      rcases h with h | rfl
      · exact .inl ⟨h, nofun⟩
      · exact .inr rfl

theorem mem_live_iff : e ∈ live log ↔
      0 < e.1 ∧ ∃ pre post, log = pre ++ .set e.1 e.2 :: post ∧ covers post e.1 = false := by
  constructor
  · intro he
    induction log with
    | nil => cases he
    | cons c log ih =>
      have hrest : e ∈ live log → 0 < e.1 ∧
          ∃ pre post, c :: log = pre ++ .set e.1 e.2 :: post ∧ covers post e.1 = false := by
        intro hmem
        obtain ⟨hpos, pre, post, rfl, hcovers⟩ := ih hmem
        exact ⟨hpos, c :: pre, post, rfl, hcovers⟩
      cases c with
      | delete => exact hrest he
      | set =>
        rw [live] at he
        split_ifs at he with hlive
        · rcases mem_cons.mp he with rfl | he
          · exact ⟨hlive.1, [], log, rfl, hlive.2⟩
          · exact hrest he
        · exact hrest he
  · rintro ⟨hpos, pre, post, rfl, hcovers⟩
    rw [live_append, live, if_pos ⟨hpos, hcovers⟩]
    exact mem_append_right _ mem_cons_self

theorem live_eq_nil_iff :
    live log = [] ↔ ∀ pre version value post, log = pre ++ .set version value :: post →
      version = 0 ∨ covers post version = true := by
  rw [eq_nil_iff_forall_not_mem]
  constructor
  · intro h pre version value post heq
    by_contra hnot
    rw [not_or, Bool.not_eq_true] at hnot
    exact h (version, value) (mem_live_iff.mpr ⟨Nat.pos_of_ne_zero hnot.1, pre, post, heq, hnot.2⟩)
  · intro h e he
    obtain ⟨_, pre, post, heq, hcovers⟩ := mem_live_iff.mp he
    rcases h pre e.1 e.2 post heq with hzero | hcovered
    · omega
    · rw [hcovers] at hcovered
      cases hcovered

/-! ### What replay ends with -/

structure Leads (e : ℕ × α) (es : List (ℕ × α)) : Prop where
  mem : e ∈ es
  newest : ∀ f ∈ es, f.1 ≤ e.1

theorem replay_append (cur : Option (ℕ × α)) (xs ys : List (Change α)) :
    replay cur (xs ++ ys) = replay (replay cur xs) ys := foldl_append

theorem replay_spec (log : List (Change α)) : (replay none log = none ∧ live log = []) ∨
      ∃ e, replay none log = some e ∧ Leads e (live log) := by
  induction log using List.reverseRecOn with
  | nil => exact .inl ⟨rfl, rfl⟩
  | append_singleton log c ih =>
    rw [replay_append]
    cases c with
    | set version value =>
      by_cases hpos : 0 < version
      · rw [live_concat_set log hpos]
        rcases ih with ⟨hreplay, hlive⟩ | ⟨e, hreplay, hleads⟩
        · rw [hreplay, hlive]
          refine .inr ⟨(version, value), if_pos hpos, mem_singleton_self _, ?_⟩
          intro f hf
          rw [mem_singleton.mp hf]
        · rw [hreplay]
          by_cases hnew : e.1 < version
          · refine .inr ⟨(version, value), if_pos hnew, ?_, fun f hf => ?_⟩
            · exact mem_append_right _ (mem_singleton_self _)
            · rcases mem_append.mp hf with hf | hf
              · exact le_trans (hleads.newest f hf) (le_of_lt hnew)
              · rw [mem_singleton.mp hf]
          · refine .inr ⟨e, if_neg hnew, mem_append_left _ hleads.mem, fun f hf => ?_⟩
            rcases mem_append.mp hf with hf | hf
            · exact hleads.newest f hf
            · rw [mem_singleton.mp hf]
              exact not_lt.mp hnew
      · obtain rfl : version = 0 := by omega
        rw [live_concat_zero]
        rcases ih with ⟨hreplay, hlive⟩ | ⟨e, hreplay, hleads⟩
        · rw [hreplay]
          exact .inl ⟨rfl, hlive⟩
        · rw [hreplay]
          exact .inr ⟨e, by simp [replay, load], hleads⟩
    | delete version =>
      rw [live_concat_delete]
      rcases ih with ⟨hreplay, hlive⟩ | ⟨e, hreplay, hleads⟩
      · rw [hreplay, hlive]
        exact .inl ⟨rfl, rfl⟩
      · rw [hreplay]
        by_cases hnew : version < e.1
        · have hkeep : replay (some e) [.delete version] = some e :=
            (load_delete e version).trans (if_neg (not_le.mpr hnew))
          refine .inr ⟨e, hkeep, ?_, ?_⟩
          · exact mem_filter.mpr ⟨hleads.mem, decide_eq_true hnew⟩
          · exact fun f hf => hleads.newest f (mem_filter.mp hf).1
        · have herase : replay (some e) [.delete version] = none :=
            (load_delete e version).trans (if_pos (not_lt.mp hnew))
          refine .inl ⟨herase, ?_⟩
          refine filter_eq_nil_iff.mpr fun f hf => ?_
          have := hleads.newest f hf
          rw [decide_eq_true_eq]
          omega

theorem replay_eq_none_iff : replay none log = none ↔ live log = [] := by
  rcases replay_spec log with ⟨hreplay, hlive⟩ | ⟨e, hreplay, hleads⟩
  · exact iff_of_true hreplay hlive
  · refine iff_of_false (by rw [hreplay]; exact some_ne_none e) fun hnil => ?_
    rw [hnil] at hleads
    exact not_mem_nil hleads.mem

theorem leads_of_replay (h : replay none log = some e) : Leads e (live log) := by
  rcases replay_spec log with ⟨hreplay, -⟩ | ⟨f, hreplay, hleads⟩
  · rw [hreplay] at h
    cases h
  · rw [hreplay] at h
    exact some.inj h ▸ hleads

theorem replay_of_leads (h : Leads e (live log)) (honly : ∀ f ∈ live log, f.1 = e.1 → f = e) :
    replay none log = some e := by
  rcases replay_spec log with ⟨-, hlive⟩ | ⟨f, hreplay, hleads⟩
  · rw [hlive] at h
    exact absurd h.mem not_mem_nil
  · have heq : f.1 = e.1 := le_antisymm (h.newest f hleads.mem) (hleads.newest e h.mem)
    rw [hreplay, honly f hleads.mem heq]

theorem mem_of_mem_live (h : e ∈ live log) : .set e.1 e.2 ∈ log := by
  obtain ⟨-, -, -, rfl, -⟩ := mem_live_iff.mp h
  exact mem_append_right _ mem_cons_self

theorem replay_of_newest {version : ℕ} {value : α} (hpos : 0 < version)
    (hmem : .set version value ∈ log)
    (hnewest : ∀ c ∈ log, c = .set version value ∨ c.version < version) :
    replay none log = some (version, value) := by
  obtain ⟨pre, post, rfl⟩ := append_of_mem hmem
  have hlive : (version, value) ∈ live (pre ++ .set version value :: post) := by
    refine mem_live_iff.mpr ⟨hpos, pre, post, rfl, ?_⟩
    rw [covers, List.any_eq_false]
    intro c hc
    rcases hnewest c (mem_append_right _ (mem_cons_of_mem _ hc)) with rfl | hlt
    · exact Bool.false_ne_true
    · cases c with
      | set => exact Bool.false_ne_true
      | delete => simpa [Change.erases, Change.version] using hlt
  have hother : ∀ f ∈ live (pre ++ .set version value :: post),
      f = (version, value) ∨ f.1 < version := by
    intro f hf
    rcases hnewest _ (mem_of_mem_live hf) with heq | hlt
    · rw [Change.set.injEq] at heq
      exact .inl (Prod.ext heq.1 heq.2)
    · exact .inr hlt
  refine replay_of_leads ⟨hlive, fun f hf => ?_⟩ fun f hf heq => ?_
  · rcases hother f hf with rfl | hlt
    · exact le_rfl
    · exact le_of_lt hlt
  · rcases hother f hf with rfl | hlt
    · rfl
    · exact absurd heq (ne_of_lt hlt)

/-! ### Snapshots -/

def OneValue (log : List (Change α)) : Prop :=
  ∀ version v w, .set version v ∈ log → .set version w ∈ log → v = w

theorem OneValue.concat (h : OneValue log)
    (hnew : ∀ version value, .set version value ∈ log → version < c.version) :
    OneValue (log ++ [c]) := by
  intro version v w hv hw
  rcases mem_append.mp hv with hv | hv <;> rcases mem_append.mp hw with hw | hw
  · exact h version v w hv hw
  · have hlt := hnew version v hv
    rw [← mem_singleton.mp hw] at hlt
    exact absurd hlt (lt_irrefl _)
  · have hlt := hnew version w hw
    rw [← mem_singleton.mp hv] at hlt
    exact absurd hlt (lt_irrefl _)
  · have heq := (mem_singleton.mp hv).trans (mem_singleton.mp hw).symm
    cases heq
    rfl

def snapshot (cur : Option (ℕ × α)) : List (Change α) :=
  match cur with
  | none => []
  | some e => [.set e.1 e.2]

theorem set_mem_snapshot_iff {cur : Option (ℕ × α)} :
    .set e.1 e.2 ∈ snapshot cur ↔ cur = some e := by
  cases cur with
  | none => exact iff_of_false not_mem_nil nofun
  | some =>
    rw [snapshot, mem_singleton, Change.set.injEq, some_inj, Prod.ext_iff, eq_comm,
      eq_comm (a := e.2)]

theorem replay_snapshot : replay none (snapshot (replay none log)) = replay none log := by
  cases hreplay : replay none log with
  | none => rfl
  | some =>
    obtain ⟨hpos, -⟩ := mem_live_iff.mp (leads_of_replay hreplay).mem
    exact if_pos hpos

theorem replay_snapshot_append {older newer : List (Change α)} (hone : OneValue (older ++ newer)) :
    replay none (snapshot (replay none (older ++ newer)) ++ newer) =
      replay none (older ++ newer) := by
  cases hreplay : replay none (older ++ newer) with
  | none =>
    rw [replay_eq_none_iff, live_append, append_eq_nil_iff] at hreplay
    exact replay_eq_none_iff.mpr hreplay.2
  | some e =>
    have hleads := leads_of_replay hreplay
    obtain ⟨hpos, -⟩ := mem_live_iff.mp hleads.mem
    have hsub : ∀ f ∈ live (.set e.1 e.2 :: newer), f = e ∨ f ∈ live (older ++ newer) := by
      intro f hf
      rw [live] at hf
      rw [live_append]
      split_ifs at hf
      · rcases mem_cons.mp hf with rfl | hf
        · exact .inl rfl
        · exact .inr (mem_append_right _ hf)
      · exact .inr (mem_append_right _ hf)
    have hmem : e ∈ live (.set e.1 e.2 :: newer) := by
      have hlive := hleads.mem
      rw [live_append] at hlive
      rw [live]
      rcases mem_append.mp hlive with hold | hnew
      · have huncovered := (mem_filter.mp hold).2
        rw [if_pos ⟨hpos, by simpa using huncovered⟩]
        exact mem_cons_self
      · split_ifs
        · exact mem_cons_of_mem _ hnew
        · exact hnew
    refine replay_of_leads ⟨hmem, fun f hf => ?_⟩ fun f hf heq => ?_
    · rcases hsub f hf with rfl | hf
      · exact le_rfl
      · exact hleads.newest f hf
    · rcases hsub f hf with rfl | hf
      · rfl
      · refine Prod.ext heq (hone f.1 _ _ (mem_of_mem_live hf) ?_)
        rw [heq]
        exact mem_of_mem_live hleads.mem

end Sodp.VersionedLog
