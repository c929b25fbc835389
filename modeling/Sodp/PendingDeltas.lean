import Sodp.ConnectionTasks
import Sodp.Replay

/-!
# The deltas on their way

The mutations of one key that are in the store but not yet published, in version
order, with the content each of them left. Their op lists lead from the content
that is published so far to the content of the store. A mutation adds to the end
of the line, and a task that publishes in its turn takes from the front.
-/

namespace Sodp.Tasks
open StateStore Client Function List

variable {ι : Type*}

structure Pending (ι : Type*) where
  task : ι
  source : Source
  version : ℕ
  ops : List DeltaOp
  after : Option Value

def valuesAlong (line : List (Pending ι)) : List Value := valuesOf (line.map Pending.after)

structure Line (key : String) (c : Tasks ι) (published : Option Value) (line : List (Pending ι)) :
    Prop where
  holds : ∀ p ∈ line, c.handler p.task = .publishing p.source key p.version p.ops
  all : ∀ i source k v ops, c.handler i = .publishing source k v ops →
    k = key ∧ ∃ p ∈ line, p.task = i
  versions : line.Pairwise fun p q => p.version < q.version
  tasks : line.Pairwise fun p q => p.task ≠ q.task
  issued : ∀ p ∈ line, p.version ≤ c.server.state.globalVersion
  ops : line.map Pending.ops = deltas published (line.map Pending.after)
  content : (line.map Pending.after).getLastD published =
    (c.server.state.get key).map StateEntry.value
  published_keys : (published.getD .null).AllKeys ReplayKey
  after_keys : ∀ p ∈ line, (p.after.getD .null).AllKeys ReplayKey

variable {key : String} {c c' : Tasks ι} {published : Option Value} {line : List (Pending ι)}
  {i : ι} {ops : List DeltaOp}

section
variable (h : Line key c published line)
include h

theorem Line.valueOf :
    (valuesAlong line).getLastD (published.getD .null) = c.server.state.valueOf key := by
  rw [StateStore.valueOf, ← h.content]
  rcases eq_nil_or_concat line with hnil | ⟨_, _, hlast⟩
  · simp [hnil, valuesAlong, valuesOf]
  · simp [hlast, valuesAlong, valuesOf]

theorem Line.congr
    (hhandlers : ∀ i source k v ops, c'.handler i = .publishing source k v ops ↔
      c.handler i = .publishing source k v ops)
    (hstate : c'.server.state = c.server.state) : Line key c' published line where
  holds p hp := (hhandlers ..).mpr (h.holds p hp)
  all i source k v ops hi := h.all i source k v ops ((hhandlers ..).mp hi)
  versions := h.versions
  tasks := h.tasks
  issued := by rw [hstate]; exact h.issued
  ops := h.ops
  content := by rw [hstate]; exact h.content
  published_keys := h.published_keys
  after_keys := h.after_keys

theorem Line.first {action : Action} {source : Source} {version : ℕ}
    (hi : c.handler i = .publishing source key version ops)
    (hturn : Turn c (i, action)) :
    ∃ p rest, line = p :: rest ∧ p.task = i ∧ p.version = version ∧ p.ops = ops := by
  obtain ⟨-, q, hq, htask⟩ := h.all i source key version ops hi
  have hown := h.holds q hq
  rw [htask, hi, Handler.publishing.injEq] at hown
  cases hline : line with
  | nil => rw [hline] at hq; cases hq
  | cons p rest =>
    rw [hline] at hq
    rcases mem_cons.mp hq with hqp | hqrest
    · exact ⟨p, rest, rfl, by rw [← hqp, htask], by rw [← hqp, hown.2.2.1],
        by rw [← hqp, hown.2.2.2]⟩
    · have hp := h.holds p (by rw [hline]; exact mem_cons_self)
      have hversions := h.versions
      have htasks := h.tasks
      rw [hline, pairwise_cons] at hversions htasks
      have hlt : p.version < version := hown.2.2.1 ▸ hversions.1 q hqrest
      have hne : p.task ≠ i := fun he => htasks.1 q hqrest (he.trans htask.symm)
      have hgt := hturn (key, version) (by rw [hi]; rfl) p.task hne (key, p.version)
        (by rw [hp]; rfl) rfl
      exact absurd hlt (not_lt.mpr hgt.le)

end

section Steps
variable [DecidableEq ι]

theorem Line.quiet {call : Call} (h : Line key c published line) (hi : c.handler i = .idle)
    (hquiet : (c.server.state.exec call).2 = none ∨
      ∃ version, (c.server.state.exec call).2 = some (version, [])) :
    Line key (c.moved i ({ c.server with state := (c.server.state.exec call).1 }, c.session i)
      .idle) published line := by
  have hhandler : (c.moved i ({ c.server with state := (c.server.state.exec call).1 },
      c.session i) .idle).handler = c.handler := by
    rw [← hi]
    exact update_eq_self i c.handler
  constructor
  · rw [hhandler]
    exact h.holds
  · rw [hhandler]
    exact h.all
  · exact h.versions
  · exact h.tasks
  · exact fun p hp => (h.issued p hp).trans (globalVersion_le_exec _ call)
  · exact h.ops
  · rw [h.content]
    exact (content_exec_of_quiet hquiet key).symm
  · exact h.published_keys
  · exact h.after_keys

theorem Line.mutate {source : Source} {call : Call} {version : ℕ}
    (h : Line key c published line) (hi : c.handler i = .idle) (hkey : call.key = key)
    (hvalue : (call.value.getD .null).AllKeys ReplayKey)
    (hresult : (c.server.state.exec call).2 = some (version, ops)) :
    Line key (c.moved i ({ c.server with state := (c.server.state.exec call).1 }, c.session i)
      (.publishing source call.key version ops)) published
      (line ++ [⟨i, source, version, ops, call.value⟩]) := by
  have hversion : version = c.server.state.globalVersion + 1 := version_exec hresult
  have hothers : ∀ p ∈ line, p.task ≠ i := by
    intro p hp htask
    have hp' := h.holds p hp
    rw [htask, hi] at hp'
    cases hp'
  constructor
  · intro p hp
    rcases mem_append.mp hp with hp | hp
    · rw [moved_handler_of_ne c (hothers p hp)]
      exact h.holds p hp
    · rw [mem_singleton.mp hp, moved_handler_self, hkey]
  · intro j src k v ops' hj
    by_cases hji : j = i
    · subst hji
      rw [moved_handler_self, Handler.publishing.injEq] at hj
      exact ⟨hj.2.1.symm.trans hkey, _, mem_append_right _ mem_cons_self, rfl⟩
    · rw [moved_handler_of_ne c hji] at hj
      obtain ⟨hk, p, hp, htask⟩ := h.all j src k v ops' hj
      exact ⟨hk, p, mem_append_left _ hp, htask⟩
  · rw [pairwise_append]
    refine ⟨h.versions, pairwise_singleton _ _, fun p hp q hq => ?_⟩
    rw [mem_singleton.mp hq]
    have hle := h.issued p hp
    change p.version < version
    omega
  · rw [pairwise_append]
    refine ⟨h.tasks, pairwise_singleton _ _, fun p hp q hq => ?_⟩
    rw [mem_singleton.mp hq]
    exact hothers p hp
  · intro p hp
    change p.version ≤ (c.server.state.exec call).1.globalVersion
    rcases mem_append.mp hp with hp | hp
    · exact (h.issued p hp).trans (globalVersion_le_exec _ call)
    · rw [mem_singleton.mp hp, globalVersion_exec, hresult]
      exact le_refl _
  · have hops : ops = stepOps ((c.server.state.get key).map StateEntry.value) call.value := by
      rw [← hkey, ← opsOf_eq_stepOps, opsOf, hresult]
      rfl
    rw [map_append, map_append, map_singleton, map_singleton, deltas_append, h.ops, h.content, hops]
  · rw [map_append, map_singleton]
    change _ = ((c.server.state.exec call).1.get key).map StateEntry.value
    rw [content_exec, if_pos hkey.symm]
    simp
  · exact h.published_keys
  · intro p hp
    rcases mem_append.mp hp with hp | hp
    · exact h.after_keys p hp
    · rw [mem_singleton.mp hp]
      exact hvalue

theorem Line.publish {p : Pending ι} {rest : List (Pending ι)} {server : SodpServer}
    (h : Line key c published (p :: rest)) (htask : p.task = i)
    (hstate : server.state = c.server.state) :
    Line key (c.moved i (server, c.session i) .idle) p.after rest := by
  have hversions := h.versions
  have htasks := h.tasks
  rw [pairwise_cons] at hversions htasks
  have hops := h.ops
  rw [map_cons, map_cons, deltas, List.cons.injEq] at hops
  constructor
  · intro q hq
    have hne : q.task ≠ i := fun he => htasks.1 q hq (htask.trans he.symm)
    rw [moved_handler_of_ne c hne]
    exact h.holds q (mem_cons_of_mem p hq)
  · intro j source k v ops hj
    by_cases hji : j = i
    · subst hji
      rw [moved_handler_self] at hj
      cases hj
    · rw [moved_handler_of_ne c hji] at hj
      obtain ⟨hk, q, hq, hqtask⟩ := h.all j source k v ops hj
      refine ⟨hk, q, ?_, hqtask⟩
      rcases mem_cons.mp hq with rfl | hq
      · exact absurd (hqtask.symm.trans htask) hji
      · exact hq
  · exact hversions.2
  · exact htasks.2
  · intro q hq
    change q.version ≤ server.state.globalVersion
    rw [hstate]
    exact h.issued q (mem_cons_of_mem p hq)
  · exact hops.2
  · change _ = (server.state.get key).map StateEntry.value
    rw [hstate, ← h.content, map_cons, getLastD_cons]
  · exact h.after_keys p mem_cons_self
  · exact fun q hq => h.after_keys q (mem_cons_of_mem p hq)

end Steps

end Sodp.Tasks
