import Sodp.ClientAppliers
import Sodp.ClientWalk
import Sodp.JsonEdit
import Sodp.Transition

/-!
# One delta in three clients

As walkers the three clients take the same way through objects, apart from `__proto__`, and
through lists as long as a segment is a decimal number that does not lie beyond the end. So they
hold one document after each op exactly if every op is read alike in the document before it.
-/

namespace Sodp
open List Option

def DeltaOp.WellFormed (op : DeltaOp) : Prop :=
  startsWithSlash op.path = true ∧ (op.op = .remove ∨ op.value.isSome = true)

instance (op : DeltaOp) : Decidable op.WellFormed := inferInstanceAs (Decidable (_ ∧ _))

def ClientsAgree (state : Value) (ops : List DeltaOp) : Prop :=
  ∃ r, Client.applyOps (.ofJson state) ops = .ok (.ofJson r) ∧
    Python.applyOps state ops = .ok r ∧ Java.applyOps state ops = .ok r

def Walker.sameAt (W V : Walker) (edit : Option Value) (part : String) (parts : List String)
    (state : Value) : Bool :=
  sameChild W V (fun c => same W V edit part parts c) part (some state)

def readAlike (state : Value) (op : DeltaOp) : Bool :=
  match Python.parsePath op.path with
  | [] => true
  | part :: parts =>
    Walker.sameAt Client.walker Python.applier.walker op.edit part parts state &&
      Walker.sameAt Python.applier.walker Java.applier.walker op.edit part parts state

variable {state : Value} {op : DeltaOp}

theorem Applier.applyOne_eq_ok_iff {ε : Type} (a : Applier ε) {r : Value} {edit : Option Value}
    {part : String} {parts : List String} : a.applyOne state edit (part :: parts) = .ok r ↔
      ∃ d, a.walker.walk edit part parts (a.walker.enter part (some state)) = some d ∧
        r = d.toValue := by
  have hok : ∀ {x : Except ε Container} {d : Container}, x = .ok d ↔ x.toOption = some d := by
    intro x d
    cases x <;> simp [Except.toOption]
  rw [applyOne, bind_pure_eq_ok_iff]
  refine exists_congr fun d => ?_
  rw [hok, a.toOption_setAt, @eq_comm _ d.toValue]
  rfl

theorem DeltaOp.WellFormed.carries (h : op.WellFormed) :
    Client.Carries op.op (Client.opValue op) op.edit := by
  rw [edit]
  split_ifs with hremove
  · exact hremove
  · obtain ⟨v, hv⟩ := isSome_iff_exists.mp (h.2.resolve_left hremove)
    refine ⟨hremove, ?_⟩
    rw [Client.opValue, hv]
    rfl

def AgreeOn (state : Value) (op : DeltaOp) (r : Value) : Prop :=
  Client.applyOp (.ofJson state) op = .ok (.ofJson r) ∧ Python.applyOne state op = .ok r ∧
    Java.applyOne state op = .ok r

theorem exists_agreeOn_iff (hop : op.WellFormed) :
    (∃ r, AgreeOn state op r) ↔ readAlike state op = true := by
  have hjava : Java.parts op.path = Python.parsePath op.path := by
    have hempty : op.path ≠ "" := by
      intro h
      have hslash := hop.1
      rw [h] at hslash
      cases hslash
    rw [Java.parts, Python.parsePath]
    simp only [hempty, or_false]
  have hclient : Client.parsePath op.path = Python.parsePath op.path := rfl
  rw [readAlike]
  simp only [AgreeOn, Client.applyOp, Python.applyOne, Java.applyOne, hjava, hclient]
  cases Python.parsePath op.path with
  | nil =>
    exact iff_of_true ⟨_, Client.applyAt_nil hop.carries _, rfl, rfl⟩ rfl
  | cons =>
    simp only [Client.applyAt_eq_ofJson_iff hop.carries, Applier.applyOne_eq_ok_iff]
    rw [Bool.and_eq_true, Walker.sameAt, Walker.sameAt, Walker.sameChild_iff Walker.same_iff,
      Walker.sameChild_iff Walker.same_iff]
    constructor
    · rintro ⟨r, ⟨d, hd, rfl⟩, ⟨e, he, heq⟩, f, hf, hfeq⟩
      rw [← Container.toValue_injective heq] at he
      rw [← Container.toValue_injective hfeq] at hf
      exact ⟨⟨d, hd, he⟩, d, he, hf⟩
    · rintro ⟨⟨d, hd, he⟩, e, he', hf⟩
      obtain rfl := some.inj (he.symm.trans he')
      exact ⟨d.toValue, ⟨d, hd, rfl⟩, ⟨d, he, rfl⟩, d, hf, rfl⟩

theorem clientsAgree_cons_iff {r : Value} (h : AgreeOn state op r) (ops : List DeltaOp) :
    ClientsAgree state (op :: ops) ↔ ClientsAgree r ops := by
  have hclient : Client.applyOps (.ofJson state) (op :: ops) = Client.applyOps (.ofJson r) ops := by
    rw [Client.applyOps_cons, h.1]
    rfl
  have hpython : Python.applyOps state (op :: ops) = Python.applyOps r ops := by
    rw [Python.applyOps, foldlM_cons, h.2.1]
    rfl
  have hjava : Java.applyOps state (op :: ops) = Java.applyOps r ops := by
    rw [Java.applyOps, foldlM_cons, h.2.2]
    rfl
  rw [ClientsAgree, hclient, hpython, hjava]
  rfl

theorem clientsAgree_singleton_iff : ClientsAgree state [op] ↔ ∃ r, AgreeOn state op r := by
  refine exists_congr fun r => ?_
  have hpure : ∀ {ε α : Type} (x : Except ε α), (x >>= pure) = x := fun x => bind_pure x
  rw [Client.applyOps, Python.applyOps, Java.applyOps, foldlM_cons, foldlM_cons, foldlM_cons]
  simp only [foldlM_nil, hpure]
  rfl

/-- The clients agree after each op of a list, exactly if each op is read alike in the document
that the ones before it have left. -/
theorem clients_agree_iff {ops : List DeltaOp} (hops : ∀ op ∈ ops, op.WellFormed) (state : Value) :
    (∀ n, ClientsAgree state (ops.take n)) ↔
      Transition.Along (fun s op => (Python.applyOne s op).toOption)
        (fun s op => readAlike s op = true) state ops := by
  induction ops generalizing state with
  | nil =>
    refine iff_of_true (fun n => ?_) trivial
    rw [take_nil]
    exact ⟨state, rfl, rfl, rfl⟩
  | cons op ops ih =>
    have hop := hops op mem_cons_self
    have hrest := ih fun o ho => hops o (mem_cons_of_mem _ ho)
    rw [Transition.Along, ← exists_agreeOn_iff hop]
    constructor
    · intro h
      obtain ⟨r, hr⟩ := clientsAgree_singleton_iff.mp (h 1)
      refine ⟨⟨r, hr⟩, ?_⟩
      rw [hr.2.1]
      exact (hrest r).mp fun n => (clientsAgree_cons_iff hr _).mp (h (n + 1))
    · rintro ⟨⟨r, hr⟩, h⟩ n
      rw [hr.2.1] at h
      cases n with
      | zero => exact ⟨state, rfl, rfl, rfl⟩
      | succ n => exact (clientsAgree_cons_iff hr _).mpr ((hrest r).mpr h n)

def itemOps : List DeltaOp :=
  [.add "/items/-" .null, .update "/items/0" (.bool false), .remove "/items/1",
    .add "/sizes/0/x" .null]

theorem clients_agree_on_items :
    ClientsAgree (.ofFields [("items", .array [.bool true])]) itemOps :=
  (clients_agree_iff (show ∀ op ∈ itemOps, op.WellFormed by decide) _).mpr (by decide +kernel) 4

/-- An index beyond the end leaves a gap in the TypeScript client only. -/
theorem add_beyond_end_differs : Client.applyOps (.ofJson (.array [])) [.add "/1" (.bool true)] =
        .ok (.array [none, some (.bool true)] []) ∧
      Python.applyOps (.array []) [.add "/1" (.bool true)] = .ok (.array []) ∧
      Java.applyOps (.array []) [.add "/1" (.bool true)] = .ok (.array []) := by
  refine ⟨?_, ?_, ?_⟩ <;> decide +kernel

end Sodp
