import Mathlib.Algebra.GroupWithZero.Nat
import Mathlib.Data.Option.Basic
import Mathlib.Data.List.Basic

/-!
# Runs of partial transition functions

A system is a partial step function: `step s e` is the state after event `e`, if `e` can happen in
`s`. A run of a system of several parties is one interleaving of their steps. A property that every
step preserves, or every step that meets a side condition, holds at the end of every run.
-/

namespace Sodp.Transition
open List Option

-- The parties of an example are numbered, and a run of theirs is then a closed term.
instance neZero_one : NeZero 1 := ⟨Nat.succ_ne_zero 0⟩

instance neZero_two : NeZero 2 := ⟨Nat.succ_ne_zero 1⟩

variable {σ ε : Type*} (step : σ → ε → Option σ)

def run (s : σ) (events : List ε) : Option σ := events.foldlM step s

/-- Each event of the run meets `ok` in the state it happens in. -/
def Along (ok : σ → ε → Prop) : σ → List ε → Prop
  | _, [] => True
  | s, e :: events =>
    ok s e ∧ match step s e with
      | none => True
      | some t => Along ok t events

variable {step}

theorem run_nil (s : σ) : run step s [] = some s := rfl

variable {s t : σ} {events : List ε} {ok : σ → ε → Prop} {I : σ → Prop}

theorem run_cons_eq_some {e : ε} :
    run step s (e :: events) = some t ↔ ∃ m, step s e = some m ∧ run step m events = some t := by
  rw [run, foldlM_cons]
  exact bind_eq_some_iff

theorem run_append_of_eq_some {m : σ} {before : List ε} (h : run step s before = some m)
    (after : List ε) : run step s (before ++ after) = run step m after := by
  rw [run] at h
  rw [run, foldlM_append, h]
  rfl

theorem Along.tail {e : ε} (h : Along step ok s (e :: events)) (ht : step s e = some t) :
    Along step ok t events := by
  have hrest := h.2
  rw [ht] at hrest
  exact hrest

variable {ok' side : σ → ε → Prop}

theorem Along.imp (himp : ∀ s e, ok s e → ok' s e)
    (h : Along step ok s events) : Along step ok' s events := by
  induction events generalizing s with
  | nil => trivial
  | cons e events ih =>
    refine ⟨himp s e h.1, ?_⟩
    cases hm : step s e with
    | none => trivial
    | some => exact ih (h.tail hm)

theorem Along.and (h : Along step ok s events) (h' : Along step ok' s events) :
    Along step (fun s e => ok s e ∧ ok' s e) s events := by
  induction events generalizing s with
  | nil => trivial
  | cons e events ih =>
    refine ⟨⟨h.1, h'.1⟩, ?_⟩
    cases hm : step s e with
    | none => trivial
    | some => exact ih (h.tail hm) (h'.tail hm)

theorem Along.append {before after : List ε} (h : Along step ok s (before ++ after))
    (hrun : run step s before = some t) : Along step ok s before ∧ Along step ok t after := by
  induction before generalizing s with
  | nil =>
    rw [run_nil, some.injEq] at hrun
    exact ⟨trivial, hrun ▸ h⟩
  | cons e before ih =>
    obtain ⟨m, hm, hrest⟩ := run_cons_eq_some.mp hrun
    obtain ⟨hbefore, hafter⟩ := ih (Along.tail h hm) hrest
    refine ⟨⟨h.1, ?_⟩, hafter⟩
    rw [hm]
    exact hbefore

theorem invariant_along (hstep : ∀ s e t, I s → ok s e → step s e = some t → I t) (hs : I s)
    (hok : Along step ok s events) (hrun : run step s events = some t) : I t := by
  induction events generalizing s with
  | nil =>
    rw [run_nil, some.injEq] at hrun
    exact hrun ▸ hs
  | cons e events ih =>
    obtain ⟨m, hm, hrest⟩ := run_cons_eq_some.mp hrun
    exact ih (hstep s e m hs hok.1 hm) (hok.tail hm) hrest

/-- If, among the steps that meet `side`, those that meet `ok` keep `I` and exactly these keep `P`,
then `P` holds in all states of a run of such steps exactly if every step of it meets `ok`. -/
theorem forall_reached_iff_of_side {P : σ → Prop} (hI : ∀ s, I s → P s)
    (hstep : ∀ s e t, I s → side s e → step s e = some t → (P t → ok s e) ∧ (ok s e → I t))
    (hs : I s) (hside : Along step side s events) (hrun : run step s events = some t) :
    (∀ before after m, events = before ++ after → run step s before = some m → P m) ↔
      Along step ok s events := by
  induction events generalizing s with
  | nil =>
    refine iff_of_true (fun before after m heq hm => ?_) trivial
    rw [(append_eq_nil_iff.mp heq.symm).1, run_nil, some.injEq] at hm
    exact hm ▸ hI s hs
  | cons e events ih =>
    obtain ⟨m, hm, hrest⟩ := run_cons_eq_some.mp hrun
    obtain ⟨hnec, hsuff⟩ := hstep s e m hs hside.1 hm
    constructor
    · intro h
      have hok : ok s e := hnec (h [e] events m rfl (run_cons_eq_some.mpr ⟨m, hm, rfl⟩))
      refine ⟨hok, ?_⟩
      rw [hm]
      refine (ih (hsuff hok) (hside.tail hm) hrest).mp fun before after k heq hk => ?_
      exact h (e :: before) after k (congrArg (e :: ·) heq) (run_cons_eq_some.mpr ⟨m, hm, hk⟩)
    · rintro h before after k heq hk
      cases before with
      | nil =>
        rw [run_nil, some.injEq] at hk
        exact hk ▸ hI s hs
      | cons d before =>
        rw [cons_append, List.cons.injEq] at heq
        obtain ⟨rfl, heq⟩ := heq
        obtain ⟨_, hm', hk⟩ := run_cons_eq_some.mp hk
        rw [hm, some.injEq] at hm'
        subst hm'
        exact (ih (hsuff h.1) (hside.tail hm) hrest).mpr (h.tail hm) before after k heq hk

theorem along_of_forall (h : ∀ s e, ok s e) (s : σ) (events : List ε) : Along step ok s events := by
  induction events generalizing s with
  | nil => trivial
  | cons e events ih =>
    refine ⟨h s e, ?_⟩
    cases step s e with
    | none => trivial
    | some t => exact ih t

theorem forall_reached_iff {P : σ → Prop} (hI : ∀ s, I s → P s)
    (hstep : ∀ s e t, I s → step s e = some t → (P t → ok s e) ∧ (ok s e → I t)) (hs : I s)
    (hrun : run step s events = some t) :
    (∀ before after m, events = before ++ after → run step s before = some m → P m) ↔
      Along step ok s events :=
  forall_reached_iff_of_side hI (fun s e t hI _ => hstep s e t hI) hs
    (along_of_forall (fun _ _ => trivial) s events) hrun

theorem invariant (hstep : ∀ s e t, I s → step s e = some t → I t) (hs : I s)
    (hrun : run step s events = some t) : I t := by
  have halong : Along step (fun _ _ => True) s events :=
    along_of_forall (fun _ _ => trivial) s events
  exact invariant_along (fun s e t hI _ ht => hstep s e t hI ht) hs halong hrun

instance decidableAlong {ok : σ → ε → Prop} [∀ s e, Decidable (ok s e)] (s : σ) (events : List ε) :
    Decidable (Along step ok s events) :=
  match events with
  | [] => isTrue trivial
  | e :: events =>
    match hm : step s e with
    | none => decidable_of_iff (ok s e) (by simp [Along, hm])
    | some t =>
      have : Decidable (Along step ok t events) := decidableAlong t events
      decidable_of_iff (ok s e ∧ Along step ok t events) (by simp [Along, hm])

/-- A run on a fixed input: what its last state satisfies is computed, and the rest follows. -/
theorem exists_run (P : σ → Prop) {Q : σ → Prop} (hend : ∃ t ∈ run step s events, P t)
    (h : ∀ t, run step s events = some t → P t → Q t) : ∃ t, run step s events = some t ∧ Q t := by
  obtain ⟨t, ht, hP⟩ := hend
  exact ⟨t, ht, h t ht hP⟩

end Sodp.Transition
