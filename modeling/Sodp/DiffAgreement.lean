import Sodp.ApplierAgreement
import Sodp.Replay

/-!
# The deltas of the store in three clients

Everything above the place of an op of a diff is an object in the old value and in the new one, and
stays one while the other ops are applied. On such a path the clients differ in nothing but a
`__proto__` that is not there yet.
-/

namespace Sodp
open Delta StateStore List Option JsValue

/-- The walker does as it is told with every field but a `__proto__` that is not there. -/
def Walker.Open (W : Walker) : Prop :=
  ∀ k m, (k = "__proto__" → m.get? k ≠ none) → W.enters k m = true ∧ W.assigns k m = true

theorem Applier.open_walker {ε : Type} (a : Applier ε) : a.walker.Open :=
  fun _ _ _ => ⟨rfl, rfl⟩

theorem Client.open_walker : Client.walker.Open := fun _ _ h =>
  ⟨Client.walker_enters.mpr fun hproto => h hproto.1 hproto.2,
    Client.walker_assigns.mpr fun hproto => h hproto.1 hproto.2⟩

variable {rest : List String}

theorem exists_object_of_lookup {v : Value} {seg : String}
    {n : OrderedMap String Value} (h : v.lookup (seg :: rest).dropLast = some (.object n)) :
    ∃ m, v = .object m := by
  cases rest with
  | nil => exact ⟨n, some.inj h⟩
  | cons =>
    rw [dropLast_cons_cons, Value.lookup_cons] at h
    cases v with
    | object m => exact ⟨m, rfl⟩
    | _ => cases h

theorem Walker.same_of_object {W V : Walker} (hW : W.Open) (hV : V.Open) {edit : Option Value}
    {seg : String} {m n : OrderedMap String Value}
    (h : (Value.object m).lookup (seg :: rest).dropLast = some (.object n))
    (hown : (seg :: rest).getLast? = some "__proto__" → edit ≠ none →
      (Value.object m).lookup (seg :: rest) ≠ none) : same W V edit seg rest (.dict m) = true := by
  induction rest generalizing seg m with
  | nil =>
    rw [same]
    cases edit with
    | none => rfl
    | some v =>
      have hseg : seg = "__proto__" → m.get? seg ≠ none := by
        intro hproto hnone
        refine hown (by rw [hproto]; rfl) (some_ne_none v) ?_
        rw [Value.lookup_cons, Value.get?_object, hnone]
        rfl
      rw [all_some, (hW seg m hseg).2, (hV seg m hseg).2]
      rfl
  | cons next rest ih =>
    rw [dropLast_cons_cons, Value.lookup_cons, Value.get?_object] at h
    obtain ⟨_, hchild, hlookup⟩ := bind_eq_some_iff.mp h
    obtain ⟨_, rfl⟩ := exists_object_of_lookup hlookup
    have hseg : seg = "__proto__" → m.get? seg ≠ none :=
      fun _ => by rw [hchild]; exact some_ne_none _
    rw [same, (hW seg m hseg).1, (hV seg m hseg).1, Bool.true_and, Bool.true_and, hchild]
    refine ih hlookup fun hlast hedit => ?_
    have hbelow := hown (by rwa [getLast?_cons_cons]) hedit
    rwa [Value.lookup_cons, Value.get?_object, hchild] at hbelow

theorem startsWithSlash_renderPath {base : String} (h : startsWithSlash base = true)
    (keys : List String) : startsWithSlash (renderPath base keys) = true := by
  induction keys generalizing base with
  | nil => exact h
  | cons k keys ih =>
    refine ih ?_
    rw [joinPath]
    split_ifs
    · simp [startsWithSlash]
    · obtain ⟨_, hrest⟩ := head?_eq_some_iff.mp (of_decide_eq_true h)
      simp [startsWithSlash, hrest]

theorem wellFormed_toOp (c : Delta.Change) : (c.toOp "/").WellFormed := by
  refine ⟨startsWithSlash_renderPath rfl c.keys, ?_⟩
  obtain ⟨-, before, after⟩ := c
  cases after with
  | none => exact .inl (by cases before <;> rfl)
  | some => exact .inr rfl

theorem readAlike_toOp {d : Value} {c : Delta.Change} (haddr : Client.Addressed c.keys)
    (hready : Client.Ready (.ofJson d) c) : readAlike d (c.toOp "/") = true := by
  have hparse : Python.parsePath (c.toOp "/").path = c.keys := haddr
  have hedit : (c.toOp "/").edit ≠ none → c.after ≠ none := by
    rintro hne hnone
    refine hne (if_pos ?_)
    change c.kind = .remove
    rw [Delta.Change.kind, hnone]
  rw [readAlike, hparse]
  obtain ⟨habove, hown⟩ := hready
  rw [lookup_ofJson] at habove hown
  cases hc : c.keys with
  | nil => rfl
  | cons part parts =>
    rw [hc] at habove hown
    obtain ⟨m, hm⟩ := habove (cons_ne_nil part parts)
    obtain ⟨w, hw, hobject⟩ := map_eq_some_iff.mp hm
    obtain ⟨n, rfl⟩ : ∃ n, w = .object n := by
      cases w with
      | object n => exact ⟨n, rfl⟩
      | array => rw [JsValue.ofJson] at hobject; cases hobject
      | null | bool | number | string => cases hobject
    obtain ⟨m', rfl⟩ := exists_object_of_lookup hw
    have hplain : (part :: parts).getLast? = some "__proto__" → (c.toOp "/").edit ≠ none →
        (Value.object m').lookup (part :: parts) ≠ none := fun hlast hne hnone =>
      hown hlast (hedit hne) (by rw [hnone]; rfl)
    rw [Bool.and_eq_true]
    exact ⟨Walker.same_of_object Client.open_walker Python.applier.open_walker hw hplain,
      Walker.same_of_object Python.applier.open_walker Java.applier.open_walker hw hplain⟩

theorem clientsAgree_changes {old new d : Value} {cs : List Delta.Change}
    (hcs : ∀ c ∈ cs, c.Reports old new) (haddr : ∀ c ∈ cs, Client.Addressed c.keys)
    (hready : ∀ c ∈ cs, Client.Ready (.ofJson d) c) :
    ClientsAgree d (cs.map (Delta.Change.toOp "/")) := by
  induction cs generalizing d with
  | nil => exact ⟨d, rfl, rfl, rfl⟩
  | cons c cs ih =>
    have hc : c ∈ c :: cs := mem_cons_self
    obtain ⟨r, hr⟩ := (exists_agreeOn_iff (wellFormed_toOp c)).mpr
      (readAlike_toOp (haddr c hc) (hready c hc))
    rw [map_cons, clientsAgree_cons_iff hr]
    have hstep := hr.1
    rw [Client.applyOp_toOp (haddr c hc)] at hstep
    refine ih (fun e he => hcs e (mem_cons_of_mem c he))
      (fun e he => haddr e (mem_cons_of_mem c he)) fun e he => ?_
    exact (hready e (mem_cons_of_mem c he)).step (hcs c hc) (hcs e (mem_cons_of_mem c he)) hstep

def DeltaOp.addsProto (op : DeltaOp) : Bool :=
  op.op = .add && (Client.parsePath op.path).getLast? = some "__proto__"

/-- A key that a path can name. -/
def PathKey (k : String) : Prop := k ≠ "" ∧ '/' ∉ k.toList

instance : DecidablePred PathKey := fun k =>
  inferInstanceAs (Decidable (k ≠ "" ∧ '/' ∉ k.toList))

theorem addressable_of_pathKeys {old new : Value} (ho : old.AllKeys PathKey)
    (hn : new.AllKeys PathKey) (hproto : ∀ op ∈ diff old new, op.addsProto = false) :
    Client.Addressable old new := by
  intro q hq
  have hkeys := hq.leaf.allKeys ho hn
  have hslash : ∀ k ∈ q, '/' ∉ k.toList := fun k hk => (hkeys k hk).2
  have hhead : q.head? ≠ some "" := fun hhead => (hkeys "" (mem_of_mem_head? hhead)).1 rfl
  refine ⟨hslash, hhead, fun hlast hnone => ?_⟩
  have hmem : (⟨q, old.lookup q, new.lookup q⟩ : Delta.Change) ∈ changes old new :=
    (mem_changes_iff old new _).mpr ⟨hq, rfl, rfl⟩
  have hop := hproto (Delta.Change.toOp "/" ⟨q, old.lookup q, new.lookup q⟩) (by
    rw [diff, diffAt_eq_changes]
    exact mem_map_of_mem hmem)
  obtain ⟨w, hw⟩ : ∃ w, new.lookup q = some w :=
    ne_none_iff_exists'.mp fun hnew => hq.lookup_ne (hnone.trans hnew.symm)
  have hparse : Client.parsePath (renderPath "/" q) = q := Client.addressed_of_plain hslash hhead
  rw [hnone, hw, DeltaOp.addsProto, Delta.Change.toOp, hparse, hlast] at hop
  simp [Delta.Change.kind] at hop

theorem applyOps_stepOps_clients {u w : Option Value} (hu : (u.getD .null).AllKeys PathKey)
    (hw : (w.getD .null).AllKeys PathKey) (hproto : ∀ op ∈ stepOps u w, op.addsProto = false) :
    Client.applyOps (.ofJson (u.getD .null)) (stepOps u w) = .ok (.ofJson (w.getD .null)) ∧
      Python.applyOps (u.getD .null) (stepOps u w) = .ok (w.getD .null) ∧
      Java.applyOps (u.getD .null) (stepOps u w) = .ok (w.getD .null) := by
  cases u with
  | none => cases w <;> exact ⟨rfl, rfl, rfl⟩
  | some =>
    cases w with
    | none => exact ⟨rfl, rfl, rfl⟩
    | some =>
      have haddr := addressable_of_pathKeys hu hw hproto
      obtain ⟨r, hclient, hpython, hjava⟩ :=
        clientsAgree_changes (fun _ hc => reports_of_mem hc) haddr.addressed haddr.ready
      rw [← diffAt_eq_changes, ← diff] at hclient hpython hjava
      have hnew := Client.applyOps_diff_of_addressable haddr
      rw [hclient, Except.ok.injEq] at hnew
      obtain rfl := ofJson_injective hnew
      exact ⟨hclient, hpython, hjava⟩

end Sodp
