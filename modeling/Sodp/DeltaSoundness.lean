import Sodp.DeltaEffect

/-!
# Server diff and client applier compose

A key sequence survives the trip through `joinPath` and `parsePath` when its keys are free of `/`
and it does not start with the empty key. For such locations the ops of a diff act on disjoint
places, so their joint effect is read off one location at a time.
-/

namespace Sodp.Client
open Delta List Option JsValue

def Addressed (keys : List String) : Prop := parsePath (renderPath "/" keys) = keys

theorem renderPath_toList {base : String} (hb : base ≠ "/") (hne : base ≠ "") (keys : List String) :
    (renderPath base keys).toList = base.toList ++ keys.flatMap fun k => '/' :: k.toList := by
  induction keys generalizing base with
  | nil => simp [renderPath]
  | cons k keys ih =>
    have hjoin : joinPath base k = base ++ "/" ++ k := if_neg hb
    have hpos : 0 < base.toList.length := by
      rwa [length_pos_iff, ne_eq, ← String.toList_empty, String.toList_inj]
    have hlen : ∀ s, base ++ "/" ++ k = s → 1 < s.toList.length := by
      rintro _ rfl
      simp only [String.toList_append, length_append]
      change 1 < base.toList.length + 1 + k.toList.length
      omega
    change (renderPath (joinPath base k) keys).toList = _
    rw [hjoin, ih (fun he => absurd (hlen _ he) (by decide)) fun he =>
      absurd (hlen _ he) (by decide)]
    simp [String.toList_append]

variable {k : String} {new old u w : Value} {rest : List Value} {s : JsValue} {keys : List String}

theorem splitOn_keys (h : ∀ j ∈ k :: keys, '/' ∉ j.toList) :
    (k.toList ++ keys.flatMap fun j => '/' :: j.toList).splitOn '/' =
      (k :: keys).map String.toList := by
  induction keys generalizing k with
  | nil => simpa using splitOn_eq_singleton (h k mem_cons_self)
  | cons j keys ih =>
    have ht := ih (k := j) fun i hi => h i (mem_cons_of_mem k hi)
    rw [flatMap_cons, cons_append, splitOn_append_cons_self_of_not_mem (h k mem_cons_self), ht]
    rfl

theorem joinPath_root_toList (k : String) : (joinPath "/" k).toList = '/' :: k.toList := by
  simp [joinPath, String.toList_append]

theorem joinPath_root_ne (hk : k ≠ "") : joinPath "/" k ≠ "/" := by
  intro he
  have hl := congrArg String.toList he
  rw [joinPath_root_toList] at hl
  change '/' :: k.toList = ['/'] at hl
  rw [List.cons.injEq, ← String.toList_empty, String.toList_inj] at hl
  exact hk hl.2

theorem addressed_of_plain (h : ∀ k ∈ keys, '/' ∉ k.toList)
    (hhead : keys.head? ≠ some "") : Addressed keys := by
  cases keys with
  | nil => simp [Addressed, renderPath, parsePath]
  | cons k keys =>
    have hk : k ≠ "" := fun he => hhead (by rw [he]; rfl)
    have hb := joinPath_root_ne hk
    have hne : joinPath "/" k ≠ "" := by
      intro he
      have hl := congrArg String.toList he
      rw [joinPath_root_toList] at hl
      simp at hl
    have hlist : (renderPath "/" (k :: keys)).toList =
        '/' :: (k.toList ++ keys.flatMap fun j => '/' :: j.toList) := by
      change (renderPath (joinPath "/" k) keys).toList = _
      rw [renderPath_toList hb hne, joinPath_root_toList, cons_append]
    have hroot : renderPath "/" (k :: keys) ≠ "/" := by
      intro he
      have hl := congrArg String.toList he
      rw [hlist] at hl
      change _ = ['/'] at hl
      rw [List.cons.injEq, append_eq_nil_iff, ← String.toList_empty, String.toList_inj] at hl
      exact hk hl.2.1
    rw [Addressed, parsePath, if_neg hroot, hlist, drop_one, tail_cons, splitOn_keys h]
    simp

def Change.content (c : Change) : JsValue := opValue (c.toOp "/")

theorem applyOp_toOp {c : Change} (h : Addressed c.keys) (s : JsValue) :
    applyOp s (c.toOp "/") = applyAt c.kind (Change.content c) c.keys s := by
  change applyAt c.kind _ (parsePath (renderPath "/" c.keys)) s = _
  rw [h]
  rfl

theorem written_content (c : Change) :
    written c.kind (Change.content c) = c.after.map JsValue.ofJson := by
  obtain ⟨q, b, a⟩ := c
  cases a with
  | none | some v => cases b <;> rfl

theorem kind_ne_remove_iff (c : Change) : c.kind ≠ .remove ↔ c.after ≠ none := by
  obtain ⟨q, b, a⟩ := c
  cases a with
  | none | some v => cases b <;> simp [Change.kind]

variable {p r : List String}

section Effects
variable {old new : Value}

theorem apart_of_leaves {q : List String} (hq : Leaf old new q) (hr : Leaf old new r)
    (hne : q ≠ r) : Apart q r :=
  ⟨fun h => hne (hq.eq_of_isPrefix hr h), fun h => hne (hr.eq_of_isPrefix hq h).symm⟩

variable {s s' : JsValue} {cs : List Change} {c : Change}

theorem applyOps_changes_cons (haddr : Addressed c.keys)
    (h : applyOps s ((c :: cs).map (Change.toOp "/")) = .ok s') :
    ∃ s₁, applyAt c.kind (Change.content c) c.keys s = .ok s₁ ∧
      applyOps s₁ (cs.map (Change.toOp "/")) = .ok s' := by
  rw [map_cons, applyOps_cons, applyOp_toOp haddr] at h
  exact bind_eq_ok_iff.mp h

section
variable (haddr : ∀ c ∈ cs, Addressed c.keys)
include haddr

theorem applyOps_changes_invariant {P : JsValue → Prop}
    (h : applyOps s (cs.map (Change.toOp "/")) = .ok s')
    (hstep : ∀ c ∈ cs, ∀ s s₁, applyAt c.kind (Change.content c) c.keys s = .ok s₁ → P s → P s₁)
    (hs : P s) : P s' := by
  induction cs generalizing s with
  | nil => exact Except.ok.inj h ▸ hs
  | cons c cs ih =>
    rw [forall_mem_cons] at haddr hstep
    obtain ⟨s₁, hc, h⟩ := applyOps_changes_cons haddr.1 h
    exact ih haddr.2 h hstep.2 (hstep.1 s s₁ hc hs)

theorem applyOps_changes_apart
    (h : applyOps s (cs.map (Change.toOp "/")) = .ok s') (hp : ∀ c ∈ cs, Apart c.keys p) :
    s'.lookup p = s.lookup p :=
  applyOps_changes_invariant (P := fun s' => s'.lookup p = s.lookup p) haddr h
    (fun c hc _ _ h hs => (applyAt_lookup_apart h (hp c hc)).trans hs) rfl

theorem applyOps_changes_inherited {q : List String}
    (h : applyOps s (cs.map (Change.toOp "/")) = .ok s')
    (hq : ∀ c ∈ cs, c.keys = q ∨ Apart c.keys q) (hlast : q.getLast? = some "__proto__")
    (hnone : s.lookup q = none) : s'.lookup q = none := by
  refine applyOps_changes_invariant (P := fun s => s.lookup q = none) haddr h ?_ hnone
  intro c hc s s₁ h hs
  rcases hq c hc with rfl | hapart
  · exact applyAt_inherited h hlast hs
  · rw [applyAt_lookup_apart h hapart, hs]

theorem applyOps_changes_above {m : OrderedMap String JsValue}
    (h : applyOps s (cs.map (Change.toOp "/")) = .ok s')
    (hp : ∀ c ∈ cs, ¬ c.keys <+: p) (hm : s.lookup p = some (.object m)) :
    ∃ n, s'.lookup p = some (.object n) := by
  refine applyOps_changes_invariant (P := fun s => ∃ n, s.lookup p = some (.object n)) haddr h ?_
    ⟨m, hm⟩
  rintro c hc s s₁ h ⟨n, hn⟩
  by_cases hpc : p <+: c.keys
  · exact applyAt_lookup_above h hpc (fun he => hp c hc (he ▸ prefix_refl _)) hn
  · exact ⟨n, by rw [applyAt_lookup_apart h ⟨hp c hc, hpc⟩, hn]⟩

end

/-- The parent of the location is an object, and a `__proto__` that is to be
assigned is already an own field. -/
def Ready (s : JsValue) (c : Change) : Prop :=
  (c.keys ≠ [] → ∃ m, s.lookup c.keys.dropLast = some (.object m)) ∧
    (c.keys.getLast? = some "__proto__" → c.after ≠ none → s.lookup c.keys ≠ none)

theorem Ready.lands (hr : Ready s c) (hc : c.Reports old new) :
    ∃ s', applyAt c.kind (Change.content c) c.keys s = .ok s' ∧
      ∀ t, s'.lookup (c.keys ++ t) = (new.lookup (c.keys ++ t)).map JsValue.ofJson := by
  have hroot : c.keys = [] → c.kind ≠ .remove := by
    intro hnil
    rw [kind_ne_remove_iff, hc.after, hnil]
    simp
  have hown : c.keys.getLast? = some "__proto__" → c.kind ≠ .remove → s.lookup c.keys ≠ none :=
    fun hl hk => hr.2 hl ((kind_ne_remove_iff c).mp hk)
  obtain ⟨s', hs', hlook⟩ := applyAt_lands (Change.content c) hroot hr.1 hown
  refine ⟨s', hs', fun t => ?_⟩
  rw [hlook t, written_content, hc.after, Value.lookup_append]
  cases new.lookup c.keys with
  | none => rfl
  | some => simp [lookup_ofJson]

theorem Ready.step {s₁ : JsValue} {d : Change} (hc : c.Reports old new) (hd : d.Reports old new)
    (hr : Ready s d) (h : applyAt c.kind (Change.content c) c.keys s = .ok s₁) : Ready s₁ d := by
  by_cases hcd : c.keys = d.keys
  · have hda : c.after = d.after := by rw [hc.after, hd.after, hcd]
    have hrc : Ready s c := by
      rw [Ready, hcd, hda]
      exact hr
    obtain ⟨s', hs', hlook⟩ := hrc.lands hc
    obtain rfl : s' = s₁ := Except.ok.inj (hs'.symm.trans h)
    refine ⟨fun hne => ?_, fun hl ha => ?_⟩
    · obtain ⟨m, hm⟩ := hr.1 hne
      have hpre : d.keys.dropLast <+: c.keys := hcd ▸ dropLast_prefix d.keys
      have hlt : d.keys.dropLast ≠ c.keys := by
        intro he
        have hl := congrArg List.length (he.trans hcd)
        have hpos := length_pos_iff.mpr hne
        rw [length_dropLast] at hl
        omega
      exact applyAt_lookup_above h hpre hlt hm
    · have h0 := hlook []
      rw [append_nil, hcd, ← hd.after] at h0
      rw [h0]
      simpa using ha
  · have hap := apart_of_leaves hc.leaf hd.leaf hcd
    refine ⟨fun hne => ?_, fun hl ha => ?_⟩
    · obtain ⟨m, hm⟩ := hr.1 hne
      by_cases hpre : d.keys.dropLast <+: c.keys
      · refine applyAt_lookup_above h hpre (fun he => hap.1 ?_) hm
        exact he ▸ dropLast_prefix d.keys
      · refine ⟨m, ?_⟩
        rw [applyAt_lookup_apart h ⟨fun hq => hap.1 (hq.trans (List.dropLast_prefix _)), hpre⟩, hm]
    · rw [applyAt_lookup_apart h hap]
      exact hr.2 hl ha

theorem applyOps_changes_lands (hcs : ∀ d ∈ cs, d.Reports old new)
    (haddr : ∀ d ∈ cs, Addressed d.keys) (hc : c ∈ cs) (hr : Ready s c)
    (h : applyOps s (cs.map (Change.toOp "/")) = .ok s') (t : List String) :
    s'.lookup (c.keys ++ t) = (new.lookup (c.keys ++ t)).map JsValue.ofJson := by
  induction cs generalizing s c with
  | nil => exact absurd hc not_mem_nil
  | cons d cs ih =>
    have hreports := hcs c hc
    rw [forall_mem_cons] at hcs haddr
    obtain ⟨hd, hcs⟩ := hcs
    obtain ⟨s₁, hs₁, h⟩ := applyOps_changes_cons haddr.1 h
    by_cases hlater : ∃ e ∈ cs, e.keys = c.keys
    · obtain ⟨e, he, hek⟩ := hlater
      have hre : Ready s e := by
        have hea : e.after = c.after := by rw [(hcs e he).after, hreports.after, hek]
        rwa [Ready, hek, hea]
      rw [← hek]
      exact ih hcs haddr.2 he (hre.step hd (hcs e he) hs₁) h
    · -- No later change shares the location, so the first one is `c` itself.
      obtain rfl : c = d := (mem_cons.mp hc).resolve_right fun hin => hlater ⟨c, hin, rfl⟩
      obtain ⟨s₂, hs₂, hlook⟩ := hr.lands hd
      obtain rfl : s₂ = s₁ := Except.ok.inj (hs₂.symm.trans hs₁)
      rw [← hlook t]
      refine applyOps_changes_apart haddr.2 h fun e he => ?_
      have hne : e.keys ≠ c.keys := fun hek => hlater ⟨e, he, hek⟩
      exact (apart_of_leaves (hcs e he).leaf hd.leaf hne).append_right t

theorem applyOps_changes_ok (hcs : ∀ d ∈ cs, d.Reports old new)
    (haddr : ∀ d ∈ cs, Addressed d.keys) (hr : ∀ d ∈ cs, Ready s d) :
    ∃ s', applyOps s (cs.map (Change.toOp "/")) = .ok s' := by
  induction cs generalizing s with
  | nil => exact ⟨s, rfl⟩
  | cons c cs ih =>
    rw [forall_mem_cons] at hcs haddr hr
    obtain ⟨_, hs₁, -⟩ := hr.1.lands hcs.1
    rw [map_cons, applyOps_cons, applyOp_toOp haddr.1, hs₁]
    exact ih hcs.2 haddr.2 fun d hd => (hr.2 d hd).step hcs.1 (hcs.2 d hd) hs₁

end Effects

def CalmAlong : Value → List Value → List String → Prop
  | _, [], _ => True
  | u, w :: rest, p => Calm u w p ∧ CalmAlong w rest p

theorem CalmAlong.of_isPrefix (h : CalmAlong u rest p) (hr : r <+: p) : CalmAlong u rest r := by
  induction rest generalizing u with
  | nil => trivial
  | cons w rest ih => exact ⟨h.1.of_isPrefix hr, ih h.2⟩

/-- The document agrees with the end of the history `u :: rest` at every place
that the rest of the history leaves alone. Elsewhere it may hold anything. -/
def Tracks (s : JsValue) (u : Value) (rest : List Value) : Prop :=
  ∀ p, CalmAlong u rest p → JsValue.Agree (s.lookup p) ((JsValue.ofJson (rest.getLastD u)).lookup p)

theorem agree_of_calm (h : Calm u w p) :
    JsValue.Agree ((JsValue.ofJson u).lookup p) ((JsValue.ofJson w).lookup p) := by
  rw [lookup_ofJson, lookup_ofJson]
  rcases h.lookup with heq | ⟨⟨m, hm⟩, n, hn⟩
  · exact .inl (by rw [heq])
  · refine .inr ⟨⟨m.map .ofJson, ?_⟩, n.map .ofJson, ?_⟩
    · rw [hm, map_some, ofJson_object]
    · rw [hn, map_some, ofJson_object]

theorem tracks_self (u : Value) (rest : List Value) : Tracks (.ofJson u) u rest := by
  induction rest generalizing u with
  | nil => exact fun p _ => .inl rfl
  | cons w rest ih =>
    intro p hp
    rw [getLastD_cons]
    exact (agree_of_calm hp.1).trans (ih w p hp.2)

theorem Tracks.done (h : Tracks s u []) : s = .ofJson u :=
  eq_of_agree u s fun p => h p trivial

theorem object_of_agree {a b : Option JsValue} (h : JsValue.Agree a b)
    (hb : ∃ m, b = some (.object m)) : ∃ n, a = some (.object n) := by
  rcases h with rfl | ⟨ha, -⟩
  · exact hb
  · exact ha

theorem object_at_end (h : CalmAlong w rest r) (hw : ∃ m, w.lookup r = some (.object m)) :
    ∃ n, (JsValue.ofJson (rest.getLastD w)).lookup r = some (.object n) := by
  obtain ⟨m, hm⟩ := hw
  rcases tracks_self w rest r h with heq | ⟨-, hn⟩
  · refine ⟨m.map .ofJson, ?_⟩
    rw [← heq, lookup_ofJson, hm, map_some, ofJson_object]
  · exact hn

structure Covers (old new : Value) (cs : List Change) : Prop where
  reports : ∀ c ∈ cs, c.Reports old new
  complete : ∀ q, Overwrites old new q → ∃ c ∈ cs, c.keys = q

theorem covers_changes (old new : Value) : Covers old new (changes old new) :=
  ⟨fun _ hc => reports_of_mem hc, fun q hq =>
    ⟨⟨q, old.lookup q, new.lookup q⟩, (mem_changes_iff old new _).mpr ⟨hq, rfl, rfl⟩, rfl⟩⟩

/-- The changes of one step move a tracking document along the history. Where one of them
is, the op lands because everything above it is calm from here on; elsewhere the document
was already right or stays an object. -/
theorem Tracks.step_covers {s' : JsValue} {cs : List Change} (h : Tracks s u (w :: rest))
    (hcs : Covers u w cs) (haddr : ∀ c ∈ cs, Addressed c.keys)
    (hown : ∀ c ∈ cs, c.keys.getLast? = some "__proto__" → c.after ≠ none → s.lookup c.keys ≠ none)
    (happ : applyOps s (cs.map (Change.toOp "/")) = .ok s') : Tracks s' w rest := by
  intro p hp
  have hend := fun r => h r
  simp only [getLastD_cons] at hend
  by_cases hc : ∃ c ∈ cs, c.keys <+: p
  · obtain ⟨c, hc, hcp⟩ := hc
    have hleaf := (hcs.reports c hc).leaf
    have hready : Ready s c := by
      refine ⟨fun hne => ?_, hown c hc⟩
      have hpre : c.keys.dropLast <+: c.keys := dropLast_prefix c.keys
      have habove := hleaf.above_dropLast hne
      have hcalm : Calm u w c.keys.dropLast := by
        intro q hq hqo
        have heq := hqo.leaf.eq_of_isPrefix hleaf (hq.trans hpre)
        have hl := hq.length_le
        have hpos := length_pos_iff.mpr hne
        rw [heq, length_dropLast] at hl
        omega
      have hrest := hp.of_isPrefix (hpre.trans hcp)
      exact object_of_agree (hend _ ⟨hcalm, hrest⟩) (object_at_end hrest habove.2)
    obtain ⟨t, rfl⟩ := hcp
    rw [applyOps_changes_lands hcs.reports haddr hc hready happ t, ← lookup_ofJson]
    exact tracks_self w rest _ hp
  · push Not at hc
    have hcalm : Calm u w p := by
      intro q hq hqo
      obtain ⟨c, hcm, rfl⟩ := hcs.complete q hqo
      exact hc c hcm hq
    have hs := hend p ⟨hcalm, hp⟩
    by_cases hbelow : ∃ c ∈ cs, p <+: c.keys
    · obtain ⟨c, hcm, t, ht⟩ := hbelow
      have hleaf := (hcs.reports c hcm).leaf
      cases t with
      | nil =>
        rw [append_nil] at ht
        exact absurd (ht ▸ prefix_refl p) (hc c hcm)
      | cons =>
        rw [← ht] at hleaf
        have hobj := object_at_end hp hleaf.above.2
        obtain ⟨m, hm⟩ := object_of_agree hs hobj
        exact .inr ⟨applyOps_changes_above haddr happ hc hm, hobj⟩
    · push Not at hbelow
      rw [applyOps_changes_apart haddr happ fun c hcm => ⟨hc c hcm, hbelow c hcm⟩]
      exact hs

theorem Tracks.step {s' : JsValue} (h : Tracks s u (w :: rest))
    (haddr : ∀ c ∈ changes u w, Addressed c.keys)
    (hown : ∀ c ∈ changes u w, c.keys.getLast? = some "__proto__" → c.after ≠ none →
      s.lookup c.keys ≠ none)
    (happ : applyOps s (diff u w) = .ok s') : Tracks s' w rest := by
  rw [diff, diffAt_eq_changes] at happ
  exact h.step_covers (covers_changes u w) haddr hown happ

theorem ready_of_reports {c : Change} (hc : c.Reports old new)
    (hown : c.keys.getLast? = some "__proto__" → c.after ≠ none →
      (JsValue.ofJson old).lookup c.keys ≠ none) :
    Ready (.ofJson old) c := by
  refine ⟨fun hne => ?_, hown⟩
  obtain ⟨m, hm⟩ := (hc.leaf.above_dropLast hne).1
  exact ⟨m.map .ofJson, by rw [lookup_ofJson, hm, map_some, ofJson_object]⟩

theorem applyOps_covers {cs : List Change} (hcs : Covers old new cs)
    (haddr : ∀ c ∈ cs, Addressed c.keys)
    (hown : ∀ c ∈ cs, c.keys.getLast? = some "__proto__" → c.after ≠ none →
      (JsValue.ofJson old).lookup c.keys ≠ none) :
    applyOps (.ofJson old) (cs.map (Change.toOp "/")) = .ok (.ofJson new) := by
  obtain ⟨s, hs⟩ := applyOps_changes_ok hcs.reports haddr fun c hc =>
    ready_of_reports (hcs.reports c hc) (hown c hc)
  rw [hs, ((tracks_self old [new]).step_covers hcs haddr hown hs).done]

/-- Every place where the two values differ can be named by a path and assigned:
its keys are free of `/`, it does not start with the empty key, and it is no
`__proto__` that the old value lacks. -/
def Addressable (old new : Value) : Prop :=
  ∀ q, Overwrites old new q → (∀ k ∈ q, '/' ∉ k.toList) ∧ q.head? ≠ some "" ∧
    (q.getLast? = some "__proto__" → old.lookup q ≠ none)

section
variable (h : Addressable old new)
include h

theorem Addressable.addressed :
    ∀ c ∈ changes old new, Addressed c.keys := by
  intro c hc
  obtain ⟨hslash, hhead, -⟩ := h c.keys ((mem_changes_iff old new c).mp hc).1
  exact addressed_of_plain hslash hhead

theorem Addressable.own :
    ∀ c ∈ changes old new, c.keys.getLast? = some "__proto__" → c.after ≠ none →
      (JsValue.ofJson old).lookup c.keys ≠ none := by
  intro c hc hl _ hnone
  rw [lookup_ofJson, map_eq_none_iff] at hnone
  exact (h c.keys ((mem_changes_iff old new c).mp hc).1).2.2 hl hnone

theorem Addressable.ready :
    ∀ c ∈ changes old new, Ready (.ofJson old) c :=
  fun c hc => ready_of_reports (reports_of_mem hc) (h.own c hc)

theorem applyOps_diff_of_addressable :
    applyOps (.ofJson old) (diff old new) = .ok (.ofJson new) := by
  rw [diff, diffAt_eq_changes]
  exact applyOps_covers (covers_changes old new) h.addressed h.own

end

/-- A key that a path can name and a plain assignment can create. -/
def PlainKey (k : String) : Prop := k ≠ "" ∧ '/' ∉ k.toList ∧ k ≠ "__proto__"

instance : DecidablePred PlainKey := fun k =>
  inferInstanceAs (Decidable (k ≠ "" ∧ '/' ∉ k.toList ∧ k ≠ "__proto__"))

theorem addressable_of_plainKeys (ho : old.AllKeys PlainKey) (hn : new.AllKeys PlainKey) :
    Addressable old new := by
  intro q hq
  have hkeys := hq.leaf.allKeys ho hn
  refine ⟨fun k hk => (hkeys k hk).2.1, fun hhead => ?_, fun hlast => ?_⟩
  · exact (hkeys "" (mem_of_mem_head? hhead)).1 rfl
  · exact absurd rfl (hkeys "__proto__" (mem_of_mem_getLast? hlast)).2.2

def single (k : String) (v : Value) : Value := .object ⟨[k], pairwise_singleton _ k, fun _ => v⟩

theorem diff_empty_single (k : String) (v : Value) :
    diff (.object .empty) (single k v) = [.add (joinPath "/" k) v] := by
  simp [diff, diffAt, single, OrderedMap.empty, OrderedMap.get?]

theorem lookup_single (k : String) (v : Value) :
    (JsValue.ofJson (single k v)).lookup [k] = some (.ofJson v) := by
  rw [lookup_ofJson]
  simp [single, Value.lookup_cons, OrderedMap.get?]

theorem parsePath_slash (hslash : '/' ∈ k.toList) :
    ∃ j ks, parsePath (joinPath "/" k) = j :: ks ∧ j ≠ k := by
  have hk : k ≠ "" := by
    intro he
    subst he
    simp at hslash
  obtain ⟨a, b, hab, ha⟩ := eq_append_cons_of_mem hslash
  have hparse : parsePath (joinPath "/" k) =
      String.ofList a :: (b.splitOn '/').map String.ofList := by
    rw [parsePath, if_neg (joinPath_root_ne hk), joinPath_root_toList, drop_one,
      tail_cons, hab, splitOn_append_cons_self_of_not_mem ha, map_cons]
  refine ⟨_, _, hparse, fun he => ?_⟩
  rw [← he, String.toList_ofList] at hslash
  exact ha hslash

theorem applyOps_diff_single_ne (hk : ¬ PlainKey k) :
    applyOps (.ofJson (.object .empty)) (diff (.object .empty) (single k .null)) ≠
      .ok (.ofJson (single k .null)) := by
  have hempty : (JsValue.ofJson (.object .empty)).lookup [k] = none := by
    rw [lookup_ofJson]
    simp [Value.lookup_cons]
  have hfield : ∀ s, applyOp (.ofJson (.object .empty)) (.add (joinPath "/" k) .null) = .ok s →
      s.lookup [k] = none := by
    intro s hs
    by_cases hslash : '/' ∈ k.toList
    · obtain ⟨j, _, hparse, hj⟩ := parsePath_slash hslash
      rw [applyOp, DeltaOp.add, hparse] at hs
      rw [applyAt_lookup_apart hs, hempty]
      refine ⟨fun hp => hj (cons_prefix_cons.mp hp).1, fun hp => ?_⟩
      exact hj (cons_prefix_cons.mp hp).1.symm
    · by_cases hnil : k = ""
      · subst hnil
        have hroot : applyOp (.ofJson (.object .empty)) (.add (joinPath "/" "") .null) =
            .ok (.ofJson .null) := rfl
        rw [hroot, Except.ok.injEq] at hs
        rw [← hs]
        rfl
      · have hproto : k = "__proto__" := by
          by_contra hp
          exact hk ⟨hnil, hslash, hp⟩
        subst hproto
        have hsame : applyOp (.ofJson (.object .empty)) (.add (joinPath "/" "__proto__") .null) =
            .ok (.ofJson (.object .empty)) := rfl
        rw [hsame, Except.ok.injEq] at hs
        rw [← hs, hempty]
  intro h
  rw [diff_empty_single, applyOps_cons] at h
  cases hs : applyOp (.ofJson (.object .empty)) (.add (joinPath "/" k) .null) with
  | error => simp [hs, Except.bind] at h
  | ok s =>
    rw [hs] at h
    have hnone := hfield s hs
    rw [Except.ok.inj h, lookup_single] at hnone
    simp at hnone

/-- Over a set of keys a diff always reaches the client intact exactly when each of
them is plain. For a single pair it does so when every place that changes can be
named by a path. -/
theorem diff_applyOps_iff (keys : Set String) :
    ((∀ old new : Value, old.AllKeys (· ∈ keys) → new.AllKeys (· ∈ keys) →
        applyOps (.ofJson old) (diff old new) = .ok (.ofJson new)) ↔ ∀ k ∈ keys, PlainKey k) ∧
    ∀ old new : Value, Addressable old new →
      applyOps (.ofJson old) (diff old new) = .ok (.ofJson new) := by
  refine ⟨⟨fun h k hk => ?_, ?_⟩, fun old new h => applyOps_diff_of_addressable h⟩
  · by_contra hplain
    refine applyOps_diff_single_ne hplain (h _ _ (by simp [Value.AllKeys, OrderedMap.empty]) ?_)
    intro j
    exact ⟨by rw [mem_singleton.mp j.2]; exact hk, trivial⟩
  · intro h old new ho hn
    exact applyOps_diff_of_addressable (addressable_of_plainKeys (ho.mono h) (hn.mono h))

/-- A key with a slash turns into a path of two keys, the empty key replaces the
whole document, and `__proto__` never arrives. -/
theorem diff_applyOps_goes_astray :
    applyOps (.ofJson (.object .empty)) (diff (.object .empty) (single "a/b" .null)) =
      .ok (.ofJson (single "a" (single "b" .null))) ∧
    applyOps (.ofJson (.object .empty)) (diff (.object .empty) (single "" .null)) =
      .ok (.ofJson .null) ∧
    applyOps (.ofJson (.object .empty)) (diff (.object .empty) (single "__proto__" .null)) =
      .ok (.ofJson (.object .empty)) ∧ ∀ k ∈ ["a/b", "", "__proto__"],
      applyOps (.ofJson (.object .empty)) (diff (.object .empty) (single k .null)) ≠
        .ok (.ofJson (single k .null)) := by
  decide +kernel

end Sodp.Client
