import Sodp.Session

/-!
# The rate limiter of a session

`session.rs` counts the calls of the current window, and a window starts with the first call after
the last one has run out. One second can meet two windows and no third, since the call that starts
a window comes at least a second after the start of the last one.
-/

namespace Sodp.RateLimiter
open List

structure Verdict where
  time : ℕ
  resets : Bool
  allowed : Bool

def resets (lim : RateLimiter) (now : ℕ) : Bool := 1 ≤ (now - lim.windowStart) / nanosPerSec

/-- The calls of `allow` at the given times. -/
def verdicts (lim : RateLimiter) : List ℕ → List Verdict
  | [] => []
  | now :: times => ⟨now, lim.resets now, (lim.allow now).2⟩ :: verdicts (lim.allow now).1 times

def InSecond (a : ℕ) (c : Verdict) : Bool := a ≤ c.time ∧ c.time < a + nanosPerSec ∧ c.allowed

variable {lim : RateLimiter} {now a : ℕ} {times : List ℕ} {during : List Verdict}
  (hlim : lim.count ≤ lim.maxPerSec)

theorem map_time : (lim.verdicts times).map Verdict.time = times := by
  induction times generalizing lim with
  | nil => rfl
  | cons now times ih => rw [verdicts, map_cons, ih]

theorem head_le (hsorted : (now :: times).Pairwise (· ≤ ·)) : ∀ t ∈ now :: times, now ≤ t := by
  rintro t (_ | ⟨_, ht⟩)
  · exact le_rfl
  · exact rel_of_pairwise_cons hsorted ht

include hlim

/-- The count stays within the limit and grows by what is allowed. -/
theorem allow_spec (now : ℕ) : (lim.allow now).1.maxPerSec = lim.maxPerSec ∧
    (lim.allow now).1.count ≤ (lim.allow now).1.maxPerSec ∧
    (lim.allow now).1.windowStart = (if lim.resets now then now else lim.windowStart) ∧
    (lim.allow now).1.count =
      (if lim.resets now then 0 else lim.count) + (if (lim.allow now).2 then 1 else 0) := by
  simp only [allow, resets, decide_eq_true_eq]
  split_ifs <;> simp_all <;> omega

theorem countP_window (hduring : during <+: lim.verdicts times)
    (hresets : ∀ c ∈ during, c.resets = false) :
    lim.count + during.countP Verdict.allowed ≤ lim.maxPerSec := by
  induction times generalizing lim during with
  | nil => rwa [prefix_nil.mp hduring]
  | cons now times ih =>
    rcases prefix_cons_iff.mp hduring with rfl | ⟨rest, rfl, hrest⟩
    · exact hlim
    obtain ⟨hmax, hcount, -, hnext⟩ := allow_spec hlim now
    have hno : lim.resets now = false := hresets _ mem_cons_self
    have hih := ih hcount hrest fun c hc => hresets c (mem_cons_of_mem _ hc)
    rw [hnext, hmax, hno] at hih
    rw [countP_cons]
    simp at hih ⊢
    omega

theorem countP_between (hduring : during <:+: lim.verdicts times)
    (hresets : ∀ c ∈ during.tail, c.resets = false) :
    during.countP Verdict.allowed ≤ lim.maxPerSec := by
  induction times generalizing lim with
  | nil => simp [infix_nil.mp hduring]
  | cons now times ih =>
    obtain ⟨hmax, hcount, -, hnext⟩ := allow_spec hlim now
    rw [← hmax]
    rcases infix_cons_iff.mp hduring with hhead | hlater
    · rcases prefix_cons_iff.mp hhead with rfl | ⟨rest, rfl, hrest⟩
      · exact Nat.zero_le _
      · have hrest := countP_window hcount hrest hresets
        rw [countP_cons]
        dsimp only
        omega
    · exact ih hcount hlater

/-- From `a` on, a window that starts at `a` or later lasts for the rest of the second. -/
theorem countP_second (hsorted : times.Pairwise (· ≤ ·))
    (ha : ∀ t ∈ times, a ≤ t) : lim.count + (lim.verdicts times).countP (InSecond a) ≤
      if a ≤ lim.windowStart then lim.maxPerSec else 2 * lim.maxPerSec := by
  induction times generalizing lim with
  | nil =>
    change lim.count ≤ _
    split_ifs <;> omega
  | cons now times ih =>
    by_cases hover : a + nanosPerSec ≤ now
    · have hnone : (lim.verdicts (now :: times)).countP (InSecond a) = 0 := by
        rw [countP_eq_zero]
        intro c hc
        have hle := head_le hsorted _ (map_time ▸ mem_map_of_mem hc)
        simp only [InSecond, decide_eq_true_eq]
        omega
      rw [hnone]
      split_ifs <;> omega
    obtain ⟨hmax, hcount, hstart, hnext⟩ := allow_spec hlim now
    have hih := ih hcount hsorted.of_cons fun t ht => ha t (mem_cons_of_mem now ht)
    have hnow := ha now mem_cons_self
    have hone : InSecond a ⟨now, lim.resets now, (lim.allow now).2⟩ = (lim.allow now).2 := by
      simp [InSecond, hnow, not_le.mp hover]
    rw [hmax, hstart, hnext] at hih
    rw [verdicts, countP_cons, hone]
    by_cases hreset : lim.resets now = true
    · -- a window that starts at `a` or later has not run out
      have hwindow : ¬ a ≤ lim.windowStart := by
        have hlong : 1 ≤ (now - lim.windowStart) / nanosPerSec := of_decide_eq_true hreset
        rw [nanosPerSec] at hlong hover
        omega
      rw [if_pos hreset, if_pos hreset, if_pos hnow] at hih
      rw [if_neg hwindow]
      omega
    · rw [if_neg hreset, if_neg hreset] at hih
      omega

theorem countP_any_second (hsorted : times.Pairwise (· ≤ ·)) (a : ℕ) :
    (lim.verdicts times).countP (InSecond a) ≤ 2 * lim.maxPerSec := by
  induction times generalizing lim with
  | nil => exact Nat.zero_le _
  | cons now times ih =>
    by_cases ha : a ≤ now
    · have hsecond := countP_second hlim hsorted fun t ht => ha.trans (head_le hsorted t ht)
      split_ifs at hsecond <;> omega
    · obtain ⟨hmax, hcount, -⟩ := allow_spec hlim now
      rw [verdicts, countP_cons_of_neg (by simp [InSecond, ha]), ← hmax]
      exact ih hcount hsorted.of_cons

omit hlim

/-- Between two resets the calls after the first do not reset the window. -/
theorem allowed_bounded (m start : ℕ) {times : List ℕ} (hsorted : times.Pairwise (· ≤ ·)) :
    (∀ a, ((new m start).verdicts times).countP (InSecond a) ≤ 2 * m) ∧
    ∀ during, during <:+: (new m start).verdicts times →
      (∀ c ∈ during.tail, c.resets = false) → during.countP Verdict.allowed ≤ m :=
  ⟨countP_any_second (Nat.zero_le m) hsorted, fun _ => countP_between (Nat.zero_le m)⟩

theorem twice_the_limit_allowed : ((new 2 0).verdicts
      [999999998, 999999999, 1000000000, 1000000001, 1000000002]).countP (InSecond 999999998) = 4 ∧
    ((new 2 0).verdicts [999999998, 999999999, 1000000000, 1000000001, 1000000002]).countP
      (InSecond 999999998) ≤ 2 * 2 :=
  ⟨by decide, (allowed_bounded 2 0 (by decide)).1 _⟩

end Sodp.RateLimiter
