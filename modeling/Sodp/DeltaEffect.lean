import Sodp.DeltaApply

/-!
# What one op does to the lookups of a document

An op written for the key sequence `q` is described by lookups through objects. Locations neither
above nor below `q` keep their value, objects above `q` stay objects, and where the parent of `q`
is an object the lookups at and below `q` become those of the op's value.
-/

namespace Sodp.Client
open Delta List Option JsValue
open JsNumber (stringToNumber)

variable {p q rest : List String} {node s state value : JsValue} {elems : List (Option JsValue)}
  {props : List (ArrayKey × JsValue)} {kind : DeltaOpKind} {key last : String}
  {m : OrderedMap String JsValue}

theorem lookup_containerFor (next : String) (hp : p ≠ []) :
    (containerFor next).lookup p = none := by
  cases p with
  | nil => exact absurd rfl hp
  | cons =>
    simp only [containerFor]
    split_ifs <;> simp [lookup_cons, JsValue.get?]

theorem lookup_not_isContainer {v : JsValue} (hv : v.isContainer = false) (hp : p ≠ []) :
    v.lookup p = none := by
  cases p with
  | nil => exact absurd rfl hp
  | cons =>
    cases v with
    | object => simp [JsValue.isContainer] at hv
    | _ => rfl

theorem lookup_orContainer (next : String) (child : Option JsValue) (hp : p ≠ []) :
    (orContainer next child).lookup p = child.bind fun v => v.lookup p := by
  cases child with
  | none => exact lookup_containerFor next hp
  | some v =>
    by_cases hv : v.isContainer = true
    · simp [orContainer, hv]
    · rw [Bool.not_eq_true] at hv
      simp [orContainer, hv, lookup_containerFor next hp, lookup_not_isContainer hv hp]

theorem orContainer_object (next : String) (m : OrderedMap String JsValue) :
    orContainer next (some (.object m)) = .object m := rfl

theorem writeIndex_eq_array (elems : List (Option JsValue)) (props : List (ArrayKey × JsValue))
    (idx : JsNumber) (v : JsValue) : ∃ e p, writeIndex elems props idx v = .array e p := by
  unfold writeIndex
  split <;> exact ⟨_, _, rfl⟩

theorem setLength_eq_array {v : JsValue} (h : setLength elems props v = .ok s) :
    ∃ e p, s = .array e p := by
  unfold setLength at h
  split at h
  · split_ifs at h
    · exact ⟨_, _, (Except.ok.inj h).symm⟩
  · simp at h

theorem applyLast_array (h : applyLast kind value last (.array elems props) = .ok s) :
    ∃ e p, s = .array e p := by
  have hput : ∀ {s}, applyLast .add value last (.array elems props) = .ok s →
      ∃ e p, s = .array e p := by
    intro s h
    simp only [applyLast, push, assignName] at h
    split_ifs at h with h1 h2 h3
    · exact ⟨_, _, (Except.ok.inj h).symm⟩
    · rw [← Except.ok.inj h]
      exact writeIndex_eq_array _ _ _ _
    · exact setLength_eq_array h
    · exact ⟨_, _, (Except.ok.inj h).symm⟩
    · exact ⟨_, _, (Except.ok.inj h).symm⟩
  cases kind with
  | add | update => exact hput h
  | remove =>
    simp only [applyLast, deleteName] at h
    split_ifs at h with h1 h2 h3 <;> exact ⟨_, _, (Except.ok.inj h).symm⟩

theorem applyLast_object (h : applyLast kind value last (.object m) = .ok s) :
    ∃ n, s = .object n ∧ (∀ j, j ≠ last → n.get? j = m.get? j) := by
  cases kind with
  | remove =>
    simp only [applyLast, Except.ok.injEq] at h
    exact ⟨_, h.symm, fun j hj => m.get?_erase_of_ne hj⟩
  | _ =>
    simp only [applyLast] at h
    split_ifs at h
    · exact ⟨_, (Except.ok.inj h).symm, fun j _ => rfl⟩
    · exact ⟨_, (Except.ok.inj h).symm, fun j hj => m.get?_insert_of_ne hj value⟩

theorem applyParts_cons_object {next : String}
    (h : applyParts kind value key (next :: rest) (.object m) = .ok s) :
    ∃ child, applyParts kind value next rest (orContainer next (m.get? key)) = .ok child ∧
      s = .object (m.insert key child) := by
  simp only [applyParts] at h
  split_ifs at h
  cases hc : applyParts kind value next rest (orContainer next (m.get? key)) with
  | error => simp [hc, bind, Except.bind] at h
  | ok child =>
    simp only [hc, bind, Except.bind, pure, Except.pure, Except.ok.injEq] at h
    exact ⟨child, rfl, h.symm⟩

theorem applyParts_cons_array {next : String}
    (h : applyParts kind value key (next :: rest) (.array elems props) = .ok s) :
    ∃ e p, s = .array e p := by
  simp only [applyParts] at h
  split_ifs at h
  · cases hc : applyParts kind value next rest
        (orContainer next (readIndex elems props (stringToNumber key))) with
    | error e => simp [hc, bind, Except.bind] at h
    | ok child =>
      simp only [hc, bind, Except.bind, pure, Except.pure, Except.ok.injEq] at h
      rw [← h]
      exact writeIndex_eq_array _ _ _ _
  · exact ⟨_, _, (Except.ok.inj h).symm⟩

theorem applyParts_lookup_apart (h : applyParts kind value key rest node = .ok s)
    (hp : Apart (key :: rest) p) : s.lookup p = node.lookup p := by
  induction rest generalizing key node s p with
  | nil =>
    obtain ⟨j, p', rfl, hj⟩ := hp.exists_cons
    have hjk : j ≠ key := by
      rcases hj with hj | ⟨-, hj⟩
      · exact hj
      · exact absurd nil_prefix hj.1
    cases node with
    | array =>
      obtain ⟨e, q, rfl⟩ := applyLast_array h
      rfl
    | object =>
      obtain ⟨n, rfl, hn⟩ := applyLast_object h
      rw [lookup_cons, lookup_cons, get?_object, hn j hjk,
        get?_object]
    | _ =>
      simp only [applyParts, applyLast, Except.ok.injEq] at h
      rw [h]
  | cons next rest ih =>
    obtain ⟨j, p', rfl, hj⟩ := hp.exists_cons
    cases node with
    | array =>
      obtain ⟨e, q, rfl⟩ := applyParts_cons_array h
      rfl
    | object m =>
      obtain ⟨_, hc, rfl⟩ := applyParts_cons_object h
      rw [lookup_cons, lookup_cons, get?_object, get?_object]
      rcases hj with hj | ⟨rfl, hj⟩
      · rw [m.get?_insert_of_ne hj]
      · rw [m.get?_insert_self, bind_some, ih hc hj, lookup_orContainer next _ hj.ne_nil]
    | _ =>
      simp only [applyParts, Except.ok.injEq] at h
      rw [h]

theorem applyParts_lookup_above (h : applyParts kind value key rest node = .ok s)
    (hp : p <+: key :: rest) (hne : p ≠ key :: rest) (hm : node.lookup p = some (.object m)) :
    ∃ n, s.lookup p = some (.object n) := by
  induction p generalizing key rest node s with
  | nil =>
    rw [lookup_nil] at hm
    cases hm
    cases rest with
    | nil =>
      obtain ⟨n, rfl, -⟩ := applyLast_object h
      exact ⟨n, rfl⟩
    | cons =>
      obtain ⟨child, -, rfl⟩ := applyParts_cons_object h
      exact ⟨_, rfl⟩
  | cons j p ih =>
    obtain ⟨rfl, htail⟩ := cons_prefix_cons.mp hp
    cases rest with
    | nil => exact absurd (by rw [prefix_nil.mp htail]) hne
    | cons next =>
      cases node with
      | object m₀ =>
        obtain ⟨child, hc, rfl⟩ := applyParts_cons_object h
        rw [lookup_cons, get?_object] at hm ⊢
        rw [m₀.get?_insert_self, bind_some]
        obtain ⟨w, hw, hwm⟩ := bind_eq_some_iff.mp hm
        refine ih hc htail (fun he => hne (by rw [he])) ?_
        by_cases hpn : p = []
        · subst hpn
          cases hwm
          rw [hw]
          rfl
        · rw [lookup_orContainer next _ hpn, hw, bind_some, hwm]
      | _ => simp [lookup_cons, JsValue.get?] at hm

def written (kind : DeltaOpKind) (value : JsValue) : Option JsValue :=
  if kind = .remove then none else some value

theorem object_of_lookup (h : node.lookup p = some (.object m)) : ∃ m₀, node = .object m₀ := by
  cases p with
  | nil => exact ⟨m, some.inj h⟩
  | cons =>
    cases node with
    | object m₀ => exact ⟨m₀, rfl⟩
    | _ => simp [lookup_cons, JsValue.get?] at h

theorem applyParts_lands (hm : node.lookup (key :: rest).dropLast = some (.object m))
    (hown : (key :: rest).getLast? = some "__proto__" → kind ≠ .remove →
      node.lookup (key :: rest) ≠ none) :
    ∃ s, applyParts kind value key rest node = .ok s ∧
      ∀ t, s.lookup (key :: rest ++ t) = (written kind value).bind fun w => w.lookup t := by
  induction rest generalizing key node with
  | nil =>
    rw [dropLast_singleton, lookup_nil] at hm
    cases hm
    by_cases hkind : kind = .remove
    · subst hkind
      exact ⟨.object (m.erase key), rfl, fun t => by simp [lookup_cons, written]⟩
    · have hn : ¬(key = "__proto__" ∧ m.get? key = none) := fun hk =>
        hown (by rw [hk.1]; rfl) hkind (by rw [lookup_cons, get?_object, hk.2]; rfl)
      refine ⟨.object (m.insert key value), ?_, fun t => by simp [lookup_cons, written, hkind]⟩
      cases kind with
      | remove => exact absurd rfl hkind
      | _ => simp only [applyParts, applyLast, hn, if_false]
  | cons next rest ih =>
    rw [dropLast_cons_of_ne_nil (cons_ne_nil _ _)] at hm
    cases node with
    | object m₀ =>
      rw [lookup_cons, get?_object] at hm
      obtain ⟨w, hw, hwm⟩ := bind_eq_some_iff.mp hm
      obtain ⟨_, rfl⟩ := object_of_lookup hwm
      obtain ⟨s, hs, hlook⟩ := ih hwm (by
        intro hlast hkind hnone
        refine hown (by simpa using hlast) hkind ?_
        rw [lookup_cons, get?_object, hw, bind_some, hnone])
      refine ⟨.object (m₀.insert key s), ?_, fun t => ?_⟩
      · simp only [applyParts, hw, reduceCtorEq, and_false, if_false]
        rw [orContainer_object, hs]
        rfl
      · rw [cons_append, lookup_cons, get?_object, m₀.get?_insert_self, bind_some]
        exact hlook t
    | _ => simp [lookup_cons, JsValue.get?] at hm

def Harmless (k : String) : Prop := k ≠ "__proto__" ∧ k ≠ "length" ∧ k ≠ "-"

theorem applyLast_ok (kind : DeltaOpKind) (value : JsValue) (h : Harmless last) (node : JsValue) :
    ∃ s, applyLast kind value last node = .ok s := by
  obtain ⟨-, hlen, hdash⟩ := h
  cases node with
  | array =>
    cases kind with
    | remove =>
      simp only [applyLast, hdash, if_false, deleteName, hlen]
      split_ifs <;> exact ⟨_, rfl⟩
    | _ =>
      simp only [applyLast, hdash, if_false, assignName, hlen]
      split_ifs <;> exact ⟨_, rfl⟩
  | object =>
    cases kind with
    | remove => exact ⟨_, rfl⟩
    | _ =>
      simp only [applyLast]
      split_ifs <;> exact ⟨_, rfl⟩
  | _ => exact ⟨_, rfl⟩

theorem applyParts_ok (kind : DeltaOpKind) (value : JsValue) (h : ∀ k ∈ key :: rest, Harmless k)
    (node : JsValue) : ∃ s, applyParts kind value key rest node = .ok s := by
  induction rest generalizing key node with
  | nil => exact applyLast_ok kind value (h key mem_cons_self) node
  | cons next rest ih =>
    have ht : ∀ k ∈ next :: rest, Harmless k := fun k hk => h k (mem_cons_of_mem key hk)
    have hkey := (h key mem_cons_self).1
    cases node with
    | array elems props =>
      obtain ⟨s, hs⟩ := ih ht (orContainer next (readIndex elems props (stringToNumber key)))
      simp only [applyParts, hs]
      split_ifs <;> exact ⟨_, rfl⟩
    | object m =>
      obtain ⟨s, hs⟩ := ih ht (orContainer next (m.get? key))
      simp only [applyParts, hkey, false_and, if_false, hs]
      exact ⟨_, rfl⟩
    | _ => exact ⟨_, rfl⟩

theorem applyAt_lookup_apart (h : applyAt kind value q state = .ok s) (hp : Apart q p) :
    s.lookup p = state.lookup p := by
  cases q with
  | nil => exact absurd nil_prefix hp.1
  | cons key =>
    rw [applyAt] at h
    rw [applyParts_lookup_apart h hp, lookup_orContainer key _ hp.ne_nil, bind_some]

/-- A `__proto__` that is no own field does not become one. -/
theorem applyParts_inherited (h : applyParts kind value key rest node = .ok s)
    (hlast : (key :: rest).getLast? = some "__proto__") (hnone : node.lookup (key :: rest) = none) :
    s.lookup (key :: rest) = none := by
  induction rest generalizing key node s with
  | nil =>
    rw [getLast?_singleton] at hlast
    cases hlast
    cases node with
    | array =>
      obtain ⟨e, q, rfl⟩ := applyLast_array h
      rfl
    | object m =>
      have hm : m.get? "__proto__" = none := by simpa [lookup_cons] using hnone
      cases kind <;> simp only [applyParts, applyLast, hm, and_self, if_true,
        Except.ok.injEq] at h <;>
        simp [← h, lookup_cons, hm]
    | _ =>
      simp only [applyParts, applyLast, Except.ok.injEq] at h
      rwa [← h]
  | cons next rest ih =>
    cases node with
    | array =>
      obtain ⟨e, q, rfl⟩ := applyParts_cons_array h
      rfl
    | object m =>
      obtain ⟨_, hc, rfl⟩ := applyParts_cons_object h
      rw [lookup_cons, get?_object, m.get?_insert_self, bind_some]
      rw [getLast?_cons_cons] at hlast
      refine ih hc hlast ?_
      rwa [lookup_orContainer next _ (cons_ne_nil _ _)]
    | _ =>
      simp only [applyParts, Except.ok.injEq] at h
      rwa [← h]

theorem applyAt_inherited (h : applyAt kind value q state = .ok s)
    (hlast : q.getLast? = some "__proto__") (hnone : state.lookup q = none) :
    s.lookup q = none := by
  cases q with
  | nil => cases hlast
  | cons key =>
    refine applyParts_inherited h hlast ?_
    rw [lookup_orContainer key _ (cons_ne_nil _ _), bind_some]
    exact hnone

theorem applyAt_lookup_above (h : applyAt kind value q state = .ok s) (hp : p <+: q) (hne : p ≠ q)
    (hm : state.lookup p = some (.object m)) : ∃ n, s.lookup p = some (.object n) := by
  cases q with
  | nil => exact absurd (prefix_nil.mp hp) hne
  | cons key =>
    rw [applyAt] at h
    refine applyParts_lookup_above h hp hne (m := m) ?_
    by_cases hpn : p = []
    · subst hpn
      rw [lookup_nil, some.injEq] at hm
      rw [hm]
      rfl
    · rw [lookup_orContainer key _ hpn, bind_some, hm]

theorem applyAt_lands (value : JsValue) (hroot : q = [] → kind ≠ .remove)
    (hm : q ≠ [] → ∃ m, state.lookup q.dropLast = some (.object m))
    (hown : q.getLast? = some "__proto__" → kind ≠ .remove → state.lookup q ≠ none) :
    ∃ s, applyAt kind value q state = .ok s ∧
      ∀ t, s.lookup (q ++ t) = (written kind value).bind fun w => w.lookup t := by
  cases q with
  | nil =>
    have hk := hroot rfl
    exact ⟨value, by simp [applyAt, hk], fun t => by simp [written, hk]⟩
  | cons key rest =>
    obtain ⟨m, hm⟩ := hm (cons_ne_nil key rest)
    obtain ⟨_, rfl⟩ := object_of_lookup hm
    exact applyParts_lands hm hown

theorem applyAt_ok (kind : DeltaOpKind) (value : JsValue) (h : ∀ k ∈ q, Harmless k)
    (state : JsValue) : ∃ s, applyAt kind value q state = .ok s := by
  cases q with
  | nil =>
    simp only [applyAt]
    split_ifs <;> exact ⟨_, rfl⟩
  | cons => exact applyParts_ok kind value h _

end Sodp.Client
