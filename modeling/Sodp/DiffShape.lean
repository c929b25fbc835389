import Sodp.DiffAgreement

/-!
# The shape of a diff

The ops of a diff are at places of which none is above another. So they can be applied in any
order, by a client that takes each of them for what it is: all but one that adds a field `__proto__`
to an object.
-/

namespace Sodp
open Delta List JsValue
open Client (parsePath single)

variable {old new : Value}

/-! ### One op at a place -/

def Delta.changesAt (o : OrderedMap String Value) (k : String) (w : Value) : List Delta.Change :=
  match o.get? k with
  | none => [⟨[k], none, some w⟩]
  | some v =>
    if v ≠ w then
      if v.isObject && w.isObject then (changes v w).map (Change.under k)
      else [⟨[k], some v, some w⟩]
    else []

theorem keys_of_mem_changesAt {o : OrderedMap String Value} {k : String} {w : Value}
    {c : Delta.Change} (h : c ∈ changesAt o k w) : ∃ rest, c.keys = k :: rest := by
  rw [changesAt] at h
  cases hget : o.get? k with
  | none =>
    rw [hget] at h
    exact ⟨[], by rw [mem_singleton.mp h]⟩
  | some =>
    rw [hget] at h
    dsimp only at h
    split_ifs at h
    · obtain ⟨d, -, rfl⟩ := mem_map.mp h
      exact ⟨d.keys, rfl⟩
    · exact ⟨[], by rw [mem_singleton.mp h]⟩
    · cases h

theorem nodup_changesAt {w : Value} (ih : ∀ v, ((changes v w).map Delta.Change.keys).Nodup)
    (o : OrderedMap String Value) (k : String) :
    ((changesAt o k w).map Delta.Change.keys).Nodup := by
  rw [changesAt]
  cases o.get? k with
  | none => exact nodup_singleton _
  | some v =>
    dsimp only
    split_ifs
    · have hcons := (ih v).map (cons_injective (a := k))
      rwa [map_map] at hcons ⊢
    · exact nodup_singleton _
    · exact nodup_nil

theorem nodup_changes (old new : Value) : ((changes old new).map Delta.Change.keys).Nodup := by
  have hroot : ∀ {old new : Value}, ¬(old.isObject = true ∧ new.isObject = true) →
      ((changes old new).map Delta.Change.keys).Nodup := by
    intro old new hobject
    rw [changes_of_not_isObject hobject]
    split_ifs
    · exact nodup_singleton _
    · exact nodup_nil
  induction new generalizing old with
  | object n ih =>
    cases old with
    | object o =>
      obtain ⟨ks, hs, f⟩ := n
      have hks : ks.Nodup := hs.imp fun h => h.ne
      have hchanges : changes (.object o) (.object ⟨ks, hs, f⟩) =
          (ks.attach.flatMap fun k => changesAt o k.1 (f k)) ++
            (o.keys.filter fun k => k ∉ ks).map fun k => ⟨[k], o.get? k, none⟩ := by
        rw [changes]
        rfl
      rw [hchanges, map_append, map_flatMap, nodup_append']
      refine ⟨nodup_flatMap.mpr ⟨fun k _ => ?_, ?_⟩, ?_, ?_⟩
      · exact nodup_changesAt (ih k.1 (f k) (OrderedMap.get?_val ⟨ks, hs, f⟩ k)) o k.1
      · refine (nodup_attach.mpr hks).imp fun {j k} hne q hj hk => ?_
        obtain ⟨c, hc, rfl⟩ := mem_map.mp hj
        obtain ⟨d, hd, heq⟩ := mem_map.mp hk
        obtain ⟨_, hkeys⟩ := keys_of_mem_changesAt hc
        obtain ⟨_, hkeys'⟩ := keys_of_mem_changesAt hd
        rw [hkeys, hkeys', List.cons.injEq] at heq
        exact hne (Subtype.ext heq.1.symm)
      · rw [map_map]
        exact (o.nodup_keys.filter _).map fun _ _ heq => (List.cons.inj heq).1
      · intro q hq hremoved
        obtain ⟨k, -, hk⟩ := mem_flatMap.mp hq
        obtain ⟨c, hc, rfl⟩ := mem_map.mp hk
        obtain ⟨d, hd, heq⟩ := mem_map.mp hremoved
        obtain ⟨j, hj, rfl⟩ := mem_map.mp hd
        obtain ⟨_, hkeys⟩ := keys_of_mem_changesAt hc
        rw [hkeys, List.cons.injEq] at heq
        exact of_decide_eq_true (mem_filter.mp hj).2 (heq.1 ▸ k.2)
    | _ => exact hroot (by simp [Value.isObject])
  | _ => exact hroot (by simp [Value.isObject])

/-! ### The ops -/

theorem addressed_of_pathKeys (ho : old.AllKeys PathKey) (hn : new.AllKeys PathKey) :
    ∀ c ∈ changes old new, parsePath (c.toOp "/").path = c.keys := by
  intro c hc
  have hkeys := (reports_of_mem hc).leaf.allKeys ho hn
  exact Client.addressed_of_plain (fun k hk => (hkeys k hk).2) fun hhead =>
    (hkeys "" (mem_of_mem_head? hhead)).1 rfl

theorem mem_diff_iff {op : DeltaOp} :
    op ∈ diff old new ↔ ∃ c ∈ changes old new, c.toOp "/" = op := by
  rw [diff, diffAt_eq_changes, mem_map]

def DeltaOpKind.Fits : DeltaOpKind → Option Value → Option Value → Prop
  | .add, none, some _ => True
  | .remove, some _, none => True
  | .update, some v, some w => v ≠ w ∧ ¬(v.isObject = true ∧ w.isObject = true)
  | _, _, _ => False

theorem fits_of_mem_diff (ho : old.AllKeys PathKey) (hn : new.AllKeys PathKey) {op : DeltaOp}
    (hop : op ∈ diff old new) :
    op.op.Fits (old.lookup (parsePath op.path)) (new.lookup (parsePath op.path)) := by
  obtain ⟨c, hc, rfl⟩ := mem_diff_iff.mp hop
  obtain ⟨hover, hbefore, hafter⟩ := (mem_changes_iff old new c).mp hc
  have hne := hover.lookup_ne
  have hkind : (c.toOp "/").op = Change.kind ⟨c.keys, old.lookup c.keys, new.lookup c.keys⟩ := by
    rw [← hbefore, ← hafter]
    rfl
  rw [addressed_of_pathKeys ho hn c hc, hkind]
  cases hold : old.lookup c.keys with
  | none =>
    cases hnew : new.lookup c.keys with
    | none => exact hne (hold.trans hnew.symm)
    | some => trivial
  | some v =>
    cases hnew : new.lookup c.keys with
    | none => trivial
    | some w =>
      refine ⟨fun heq => hne (by rw [hold, hnew, heq]), fun hboth => ?_⟩
      obtain ⟨m, rfl⟩ := (Value.isObject_iff v).mp hboth.1
      obtain ⟨n, rfl⟩ := (Value.isObject_iff w).mp hboth.2
      exact hover.leaf.not_both_objects hold hnew

/-- Where both values have an object, the new one has no `__proto__` that the old one lacks. -/
def KeepsProto (old new : Value) : Prop :=
  ∀ q m n, old.lookup q = some (.object m) → new.lookup q = some (.object n) →
    m.get? "__proto__" = none → n.get? "__proto__" = none

theorem overwrites_of_added {q : List String} {m n : OrderedMap String Value} {k : String}
    {w : Value} (hm : old.lookup q = some (.object m)) (hn : new.lookup q = some (.object n))
    (hold : m.get? k = none) (hnew : n.get? k = some w) : Overwrites old new (q ++ [k]) := by
  induction q generalizing old new with
  | nil =>
    cases hm
    cases hn
    simp [Overwrites, hold, hnew]
  | cons j q ih =>
    obtain ⟨v, hv, hm⟩ := Option.bind_eq_some_iff.mp hm
    obtain ⟨v', hv', hn⟩ := Option.bind_eq_some_iff.mp hn
    have hobject : ∀ {u v : Value}, u.get? j = some v → u.isObject = true := by
      intro u v hu
      cases u with
      | object => rfl
      | _ => cases hu
    refine ⟨hobject hv, hobject hv', ?_⟩
    rw [hv, hv']
    exact ih hm hn

theorem keepsProto_iff (ho : old.AllKeys PathKey) (hn : new.AllKeys PathKey) :
    (∀ op ∈ diff old new, op.addsProto = false) ↔ KeepsProto old new := by
  have haddr := addressed_of_pathKeys ho hn
  have hfield : ∀ {v : Value} {q : List String} {m : OrderedMap String Value},
      v.lookup q = some (.object m) → v.lookup (q ++ ["__proto__"]) = m.get? "__proto__" := by
    intro v q m hm
    rw [Value.lookup_append, hm, Option.bind_some, Value.lookup_cons]
    exact Option.bind_fun_some _
  constructor
  · intro h q m n hm hn hold
    by_contra hnew
    obtain ⟨w, hnew⟩ := Option.ne_none_iff_exists'.mp hnew
    have hc : (⟨q ++ ["__proto__"], none, some w⟩ : Delta.Change) ∈ changes old new :=
      (mem_changes_iff ..).mpr ⟨overwrites_of_added hm hn hold hnew,
        (hold ▸ hfield hm).symm, (hnew ▸ hfield hn).symm⟩
    have hop := h _ (mem_diff_iff.mpr ⟨_, hc, rfl⟩)
    rw [DeltaOp.addsProto, haddr _ hc] at hop
    simp [Change.toOp, Change.kind] at hop
  · intro h op hop
    by_contra hadds
    have hkind := fits_of_mem_diff ho hn hop
    obtain ⟨c, hc, rfl⟩ := mem_diff_iff.mp hop
    rw [Bool.not_eq_false, DeltaOp.addsProto, Bool.and_eq_true, decide_eq_true_eq,
      decide_eq_true_eq, haddr c hc] at hadds
    obtain ⟨q, hq⟩ := getLast?_eq_some_iff.mp hadds.2
    have hleaf := (reports_of_mem hc).leaf
    rw [hadds.1, haddr c hc] at hkind
    rw [hq] at hkind hleaf
    obtain ⟨⟨m, hm⟩, n, hn⟩ := hleaf.above
    rw [hfield hm, hfield hn] at hkind
    cases hold : m.get? "__proto__" with
    | some => exact (hold ▸ hkind : DeltaOpKind.Fits .add (some _) _).elim
    | none =>
      rw [hold, h q m n hm hn hold] at hkind
      exact hkind.elim

theorem keepsProto_of_allKeys (h : new.AllKeys (· ≠ "__proto__")) : KeepsProto old new := by
  intro q m n _ hn _
  by_contra hnew
  obtain ⟨w, hnew⟩ := Option.ne_none_iff_exists'.mp hnew
  exact (Value.allKeys_object.mp (h.lookup hn).2 _ w hnew).1 rfl

theorem diff_apart (ho : old.AllKeys PathKey) (hn : new.AllKeys PathKey) :
    (diff old new).Pairwise fun a b => Apart (parsePath a.path) (parsePath b.path) := by
  have haddr := addressed_of_pathKeys ho hn
  rw [diff, diffAt_eq_changes, pairwise_map]
  refine (pairwise_map.mp (nodup_changes old new)).imp_of_mem fun {c d} hc hd hne => ?_
  rw [haddr c hc, haddr d hd]
  exact Client.apart_of_leaves (reports_of_mem hc).leaf (reports_of_mem hd).leaf hne

/-! ### Any order -/

theorem exists_map_eq {α β : Type*} {f : α → β} {l : List α} {ys : List β}
    (h : ∀ y ∈ ys, ∃ x ∈ l, f x = y) : ∃ xs : List α, xs.map f = ys ∧ ∀ x ∈ xs, x ∈ l := by
  induction ys with
  | nil => exact ⟨[], rfl, fun _ hx => absurd hx not_mem_nil⟩
  | cons y ys ih =>
    rw [forall_mem_cons] at h
    obtain ⟨x, hx, rfl⟩ := h.1
    obtain ⟨xs, rfl, hxs⟩ := ih h.2
    exact ⟨x :: xs, rfl, forall_mem_cons.mpr ⟨hx, hxs⟩⟩

theorem applyOps_of_perm (ho : old.AllKeys PathKey) (hn : new.AllKeys PathKey)
    (hproto : ∀ op ∈ diff old new, op.addsProto = false) {ops : List DeltaOp}
    (hops : ops.Perm (diff old new)) : Client.applyOps (.ofJson old) ops = .ok (.ofJson new) := by
  have haddr := addressed_of_pathKeys ho hn
  have hable := addressable_of_pathKeys ho hn hproto
  obtain ⟨_, rfl, hcs⟩ := exists_map_eq fun op hop => mem_diff_iff.mp (hops.mem_iff.mp hop)
  refine Client.applyOps_covers ⟨fun c hc => reports_of_mem (hcs c hc), fun q hq => ?_⟩
    (fun c hc => haddr c (hcs c hc)) fun c hc => hable.own c (hcs c hc)
  obtain ⟨c, hc, rfl⟩ := (Client.covers_changes old new).complete q hq
  obtain ⟨d, hd, heq⟩ := mem_map.mp (hops.mem_iff.mpr (mem_diff_iff.mpr ⟨c, hc, rfl⟩))
  refine ⟨d, hd, ?_⟩
  rw [← haddr d (hcs d hd), ← haddr c hc, heq]

theorem not_addsProto_of_applied (ho : old.AllKeys PathKey) (hn : new.AllKeys PathKey)
    (h : Client.applyOps (.ofJson old) (diff old new) = .ok (.ofJson new)) :
    ∀ op ∈ diff old new, op.addsProto = false := by
  have haddr := addressed_of_pathKeys ho hn
  intro op hop
  by_contra hadds
  have hkind := fits_of_mem_diff ho hn hop
  obtain ⟨c, hc, rfl⟩ := mem_diff_iff.mp hop
  rw [Bool.not_eq_false, DeltaOp.addsProto, Bool.and_eq_true, decide_eq_true_eq, decide_eq_true_eq,
    haddr c hc] at hadds
  rw [hadds.1, haddr c hc] at hkind
  cases hold : old.lookup c.keys with
  | some =>
    rw [hold] at hkind
    exact hkind.elim
  | none =>
    rw [diff, diffAt_eq_changes] at h
    have hnone := Client.applyOps_changes_inherited haddr h (fun d hd => ?_) hadds.2
      (by rw [lookup_ofJson, hold]; rfl)
    · rw [lookup_ofJson, Option.map_eq_none_iff] at hnone
      rw [hold, hnone] at hkind
      exact hkind.elim
    · by_cases hkeys : d.keys = c.keys
      · exact .inl hkeys
      · exact .inr (Client.apart_of_leaves (reports_of_mem hd).leaf (reports_of_mem hc).leaf hkeys)

/-- For values whose keys a path can name: the ops are at places of which none is above another,
each is of the kind that its place asks for, there is none exactly if the values are the same, and
in any order they lead the client from one to the other, exactly if no object gets a `__proto__`. -/
theorem diff_any_order_iff (ho : old.AllKeys PathKey) (hn : new.AllKeys PathKey) :
    (diff old new).Pairwise (fun a b => Apart (parsePath a.path) (parsePath b.path)) ∧
    (∀ op ∈ diff old new,
      op.op.Fits (old.lookup (parsePath op.path)) (new.lookup (parsePath op.path))) ∧
    (diff old new = [] ↔ old = new) ∧
    ((∀ ops, ops.Perm (diff old new) → Client.applyOps (.ofJson old) ops = .ok (.ofJson new)) ↔
      KeepsProto old new) := by
  refine ⟨diff_apart ho hn, fun _ hop => fits_of_mem_diff ho hn hop, diff_eq_nil_iff old new, ?_⟩
  rw [← keepsProto_iff ho hn]
  exact ⟨fun h => not_addsProto_of_applied ho hn (h _ (List.Perm.refl _)),
    fun hproto _ hops => applyOps_of_perm ho hn hproto hops⟩

theorem diff_reordered : (single "a" .null).AllKeys PathKey ∧
    (single "b" (single "c" .null)).AllKeys PathKey ∧ Client.applyOps (.ofJson (single "a" .null))
        (diff (single "a" .null) (single "b" (single "c" .null))).reverse =
      .ok (.ofJson (single "b" (single "c" .null))) :=
  ⟨by decide, by decide,
    (diff_any_order_iff (by decide) (by decide)).2.2.2.mpr
      (keepsProto_of_allKeys (by decide)) _ (reverse_perm _)⟩

theorem diff_adding_proto : (Value.object .empty).AllKeys PathKey ∧
    (single "__proto__" .null).AllKeys PathKey ∧
    Client.applyOps (.ofJson (.object .empty)) (diff (.object .empty) (single "__proto__" .null)) =
      .ok (.ofJson (.object .empty)) ∧
    JsValue.ofJson (.object .empty) ≠ .ofJson (single "__proto__" .null) := by
  decide

end Sodp
