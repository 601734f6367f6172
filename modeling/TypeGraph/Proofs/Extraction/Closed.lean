import TypeGraph.Proofs.Definition.Inlining
import TypeGraph.Proofs.Extraction.Parts
import TypeGraph.Proofs.Extraction.Reads

/-!
# Extractions are closed

What an extraction refers to is among its definitions, under the label it is referred to by, and
complete. If no object type has two properties of one name, then there is nothing else among its
definitions either: each can be reached from the root.

Main results:

* `closed_of_reads`: closedness is read off the registry behind an extraction.
* `Visits.leads`: what is registered on the way can be reached from what is read.
* `Policy.closed_finish`, `Policy.connected_finish`: both stay so whatever a policy makes of them.
-/

namespace TypeGraph

open Relation
open Node (Occurs)

namespace Checker

variable {checker : Checker} {policy : Policy}

/-! ## Closed -/

/-- What types read as is closed. -/
theorem closes_of_reads {registry : Registry TypeKey} (hs : Sound checker policy registry)
    {types : List TypeId} {nodes : List Node}
    (h : Reads checker policy registry.identifier? types nodes) :
    ∀ node ∈ nodes, registry.definitions.Closes node := by
  -- the references of a level come from inside
  have hlevel {type : TypeId} {nodes : List Node}
      (hnodes : ∀ node ∈ nodes, registry.definitions.Closes node) :
      ∀ node ∈ [checker.bodyOf type nodes], registry.definitions.Closes node := by
    intro node hm identifier displayName ho
    obtain rfl := List.mem_singleton.mp hm
    obtain ⟨inner, hi, ho⟩ := Shape.occurs_of_build (TypeInfo.plain_shape _) _ nodes _ _ ho
    exact hnodes inner hi identifier displayName ho
  induction h with
  | nil => exact fun _ hm => absurd hm List.not_mem_nil
  | cons _ _ ihfirst ihrest =>
    intro node hm
    rcases List.mem_cons.mp hm with rfl | hm
    · exact ihfirst _ List.mem_cons_self
    · exact ihrest node hm
  | level _ _ _ ih => exact hlevel ih
  | inPlace _ _ _ _ ih => exact hlevel ih
  | named named identifier? text =>
    intro node hm identifier' displayName ho
    obtain rfl := List.mem_singleton.mp hm
    cases Node.occurs_reference_iff.mp ho
    -- the identifier of a named type has a definition, and both bear the text of the type
    obtain ⟨definition, hd⟩ := OrderedMap.mem_keys_iff.mp (hs.valid.mem_keys identifier?)
    obtain ⟨label, htext, hlabel⟩ := (hs.standsFor identifier? hd).label
    rw [keyOf_fst, text] at htext
    exact ⟨definition, hd, hlabel.trans htext.symm⟩

theorem closes_of_readsBody {registry : Registry TypeKey} (hs : Sound checker policy registry)
    {type : TypeId} {body : Node}
    (h : ReadsBody checker policy registry.identifier? type body) :
    registry.definitions.Closes body := by
  obtain ⟨nodes, hinner, -, rfl⟩ := h
  intro identifier displayName ho
  obtain ⟨inner, hi, ho⟩ := Shape.occurs_of_build (TypeInfo.plain_shape _) _ nodes _ _ ho
  exact closes_of_reads hs hinner inner hi identifier displayName ho

/-- In a complete registry, every definition is what its type reads as. -/
theorem Sound.exists_readsBody {registry : Registry TypeKey} (hs : Sound checker policy registry)
    (hpending : registry.pending = []) {identifier : String} {definition : Definition}
    (hd : registry.definitions.get? identifier = some definition) :
    ∃ type, checker.isNamed type = true ∧
      ReadsBody checker policy registry.identifier? type definition.node := by
  obtain ⟨key, hi⟩ := hs.valid.exists_key (OrderedMap.mem_keys_iff.mpr ⟨definition, hd⟩)
  exact ⟨key.1, (hs.standsFor hi hd).named, hs.readsBody hpending hi hd⟩

theorem closed_of_reads {registry : Registry TypeKey} (hs : Sound checker policy registry)
    (hpending : registry.pending = []) {type : TypeId} {root : Node}
    (h : Reads checker policy registry.identifier? [type] [root]) :
    Extraction.Closed ⟨root, registry.definitions⟩ where
  root := closes_of_reads hs h root List.mem_cons_self
  bodies _ _ hd := by
    obtain ⟨type, -, hbody⟩ := hs.exists_readsBody hpending hd
    exact closes_of_readsBody hs hbody

/-! ## Complete -/

/-- The body of a definition is put together from parts; in particular it is no placeholder. -/
theorem ReadsBody.isComposite {names : TypeKey → Option String} {type : TypeId} {body : Node}
    (h : ReadsBody checker policy names type body) (named : checker.isNamed type = true) :
    body.kind.isComposite = true := by
  obtain ⟨nodes, hinner, hreadable, rfl⟩ := h
  exact Shape.isComposite_build (TypeInfo.structural_of_isNamed named) hinner.length_eq.symm
    hreadable

theorem Sound.isComposite {registry : Registry TypeKey} (hs : Sound checker policy registry)
    (hpending : registry.pending = []) {identifier : String} {definition : Definition}
    (hd : registry.definitions.get? identifier = some definition) :
    definition.node.kind.isComposite = true := by
  obtain ⟨type, named, hbody⟩ := hs.exists_readsBody hpending hd
  exact hbody.isComposite named

/-! ## Connected -/

variable {s s' : WalkState} {types : List TypeId} {nodes : List Node}

/-- A type that is registered inside its own body has no body before that is read. -/
theorem Visits.mem_pending (h : Visits checker policy s types nodes s')
    (hs : Sound checker policy s.registry) {key : TypeKey} {identifier : String}
    (hplace : policy.standsInPlace (checker.describe key.1) = true) (hin : key ∈ s.inlining)
    (hnew : s.registry.identifier? key = none)
    (hi : s'.registry.identifier? key = some identifier) : identifier ∈ s'.registry.pending := by
  -- induction on the walk: the type is registered in one place, and nothing completes it while it
  -- is being inlined
  induction h with
  | nil | met =>
    rw [hnew] at hi
    cases hi
  | @cons s s₁ s₂ _ _ _ _ hfirst hrest ihfirst ihrest =>
    obtain ⟨hs₁, -, -⟩ := hfirst.sound hs
    obtain ⟨-, hext, -⟩ := hrest.sound hs₁
    -- the type was registered by the first part, or else by the second
    cases hi₁ : s₁.registry.identifier? key with
    | none => exact ihrest hs₁ (hfirst.inlining_eq ▸ hin) hi₁ hi
    | some other =>
      obtain rfl := Option.some.inj ((hext.identifiers hi₁).symm.trans hi)
      exact (hext.pending (hs₁.valid.mem_keys hi₁)).mpr (ihfirst hs hin hnew hi₁)
  | level _ _ _ ih => exact ih hs hin hnew hi
  | @definition s s' type label nodes named apart new text inner readable ih =>
    have hnewType := hs.valid.lookup_eq_none_iff.mp new
    -- what is completed here is another type: this one stands in place
    have hne : key ≠ checker.keyOf type := by
      rintro rfl
      rw [keyOf_fst, apart] at hplace
      exact Bool.false_ne_true hplace
    obtain ⟨hs', hext, -⟩ := inner.sound (hs.register named text hnewType)
    refine (Registry.mem_pending_complete ..).mpr
      ⟨ih (hs.register named text hnewType) hin ?_ hi, ?_⟩
    · rwa [WalkState.register, Registry.identifier?_register, if_neg hne]
    · rintro rfl
      refine hne (hs'.valid.key_unique hi (hext.identifiers ?_))
      simp [WalkState.register, Registry.identifier?_register]
  | @recurs s type label named inPlace new text inside =>
    simp only [WalkState.register, Registry.identifier?_register] at hi
    split at hi
    · obtain rfl := Option.some.inj hi
      exact List.mem_cons_self
    · rw [hnew] at hi
      cases hi
  | inPlace named inPlace new text outside inner readable unmet ih =>
    exact ih hs (List.mem_cons_of_mem _ hin) hnew hi
  | late named inPlace new text outside inner readable registered ih =>
    obtain ⟨hs', -, -⟩ := inner.sound hs
    -- what is completed here is not being inlined outside of its body
    refine (Registry.mem_pending_complete ..).mpr ⟨ih hs (List.mem_cons_of_mem _ hin) hnew hi, ?_⟩
    rintro rfl
    rw [hs'.valid.key_unique hi registered] at hin
    exact outside hin

theorem refers_of_extends {before after : Registry TypeKey} (h : before.Extends after)
    {identifier other : String} (hr : before.definitions.Refers identifier other) :
    after.definitions.Refers identifier other := by
  obtain ⟨node, hnode, hother⟩ := DefinitionMap.refers_iff.mp hr
  obtain ⟨definition, hd, rfl⟩ := Option.map_eq_some_iff.mp hnode
  refine DefinitionMap.refers_iff.mpr ⟨definition.node, ?_, hother⟩
  rw [DefinitionMap.node?, h.definitions hd]
  rfl

/-- Completing a placeholder loses no references. -/
theorem refers_complete {registry : Registry TypeKey} {identifier : String}
    {definition : Definition} (hd : registry.definitions.get? identifier = some definition)
    (hplaceholder : definition.node = .unknown) (body : Node) {one other : String}
    (hr : registry.definitions.Refers one other) :
    (registry.complete identifier body).definitions.Refers one other := by
  obtain ⟨node, hnode, hother⟩ := DefinitionMap.refers_iff.mp hr
  refine DefinitionMap.refers_iff.mpr ⟨node, ?_, hother⟩
  -- the completed definition had no references, so the one at hand is of another
  rw [DefinitionMap.node?, Registry.get?_complete, if_neg]
  · exact hnode
  · rintro rfl
    rw [DefinitionMap.node?, hd, Option.map_some, hplaceholder, Option.some.injEq] at hnode
    rw [← hnode] at hother
    exact absurd hother List.not_mem_nil

/-- The body of a completed definition. -/
theorem node?_complete {registry : Registry TypeKey} {identifier : String} {definition : Definition}
    (hd : registry.definitions.get? identifier = some definition) (body : Node) :
    (registry.complete identifier body).definitions.node? identifier = some body := by
  rw [DefinitionMap.node?, Registry.get?_complete, if_pos rfl, hd]
  rfl

/-- The definition can be reached from one of the nodes. -/
def Leads (definitions : DefinitionMap) (nodes : List Node) (identifier : String) : Prop :=
  ∃ node ∈ nodes, ∃ first ∈ node.mentions, ReflTransGen definitions.Refers first identifier

theorem Leads.mono {definitions definitions' : DefinitionMap} {identifier : String}
    (h : Leads definitions nodes identifier)
    (hrefers : ∀ one other, definitions.Refers one other → definitions'.Refers one other) :
    Leads definitions' nodes identifier := by
  obtain ⟨node, hn, first, hf, hway⟩ := h
  exact ⟨node, hn, first, hf, hway.lift id hrefers⟩

/-- What can be reached from the nodes inside can be reached from the level. -/
theorem Leads.level {names : TypeKey → Option String} {type : TypeId}
    {definitions : DefinitionMap} {identifier : String}
    (h : Leads definitions nodes identifier)
    (hdistinct : ((checker.describe type).properties.map Property.name).Nodup)
    (hreads : Reads checker policy names (checker.shapeOf type).inner nodes)
    (readable : checker.Readable type) :
    ∃ first ∈ (checker.bodyOf type nodes).mentions,
      ReflTransGen definitions.Refers first identifier := by
  obtain ⟨node, hn, first, hf, hway⟩ := h
  refine ⟨first, ?_, hway⟩
  obtain ⟨displayName, ho⟩ := Node.mem_mentions_iff.mp hf
  have hlevel : Occurs (.reference first displayName) (checker.bodyOf type nodes) :=
    Shape.occurs_build hreads.length_eq.symm (TypeInfo.distinct_shape hdistinct) readable hn ho
  exact Node.mem_mentions_iff.mpr ⟨displayName, hlevel⟩

/-- What can be reached from the nodes inside can be reached from the definition of the level, once
its placeholder is completed. -/
theorem Leads.behind {registry : Registry TypeKey} {names : TypeKey → Option String}
    {type : TypeId} {own : String} {definition : Definition} {identifier : String}
    (h : Leads registry.definitions nodes identifier)
    (hd : registry.definitions.get? own = some definition)
    (hplaceholder : definition.node = .unknown)
    (hdistinct : ((checker.describe type).properties.map Property.name).Nodup)
    (hreads : Reads checker policy names (checker.shapeOf type).inner nodes)
    (readable : checker.Readable type) :
    TransGen (registry.complete own (checker.bodyOf type nodes)).definitions.Refers own
      identifier := by
  have hkept := h.mono fun _ _ => refers_complete hd hplaceholder (checker.bodyOf type nodes)
  obtain ⟨first, hf, hway⟩ := hkept.level hdistinct hreads readable
  have hown := DefinitionMap.refers_iff.mpr ⟨_, node?_complete hd _, hf⟩
  exact .head' hown hway

/-- What can be reached from a definition can be reached from a reference to it. -/
theorem leads_reference {definitions : DefinitionMap} {own identifier : String}
    (h : TransGen definitions.Refers own identifier) (displayName : Option String) :
    Leads definitions [.reference own displayName] identifier :=
  ⟨_, List.mem_singleton_self _, own, List.mem_singleton_self _, h.to_reflTransGen⟩

/-- What is registered while types are read can be reached from what they are read as. -/
theorem Visits.leads (h : Visits checker policy s types nodes s')
    (hs : Sound checker policy s.registry)
    (hdistinct : ∀ type, ((checker.describe type).properties.map Property.name).Nodup)
    {identifier : String} (hmem : identifier ∈ s'.registry.definitions.keys)
    (hnew : identifier ∉ s.registry.definitions.keys) :
    Leads s'.registry.definitions nodes identifier := by
  -- induction on the walk: what is new was registered by one of its parts
  induction h with
  | nil | met => exact absurd hmem hnew
  | @cons s s₁ s₂ _ _ _ _ hfirst hrest ihfirst ihrest =>
    obtain ⟨hs₁, -, -⟩ := hfirst.sound hs
    obtain ⟨-, hext, -⟩ := hrest.sound hs₁
    -- it was there before the rest of the types, or it is new there
    by_cases h₁ : identifier ∈ s₁.registry.definitions.keys
    · obtain ⟨node, hn, hlead⟩ := (ihfirst hs h₁ hnew).mono fun _ _ => refers_of_extends hext
      exact ⟨node, List.mem_cons.mpr (.inl (List.mem_singleton.mp hn)), hlead⟩
    · obtain ⟨node, hn, hlead⟩ := ihrest hs₁ hmem h₁
      exact ⟨node, List.mem_cons_of_mem _ hn, hlead⟩
  | level _ inner readable ih =>
    obtain ⟨-, -, hreads⟩ := inner.sound hs
    exact ⟨_, List.mem_singleton_self _, (ih hs hmem hnew).level (hdistinct _) hreads readable⟩
  | @definition s s' type label nodes named apart new text inner readable ih =>
    have hnewType := hs.valid.lookup_eq_none_iff.mp new
    obtain ⟨hs', hext, hreads⟩ := inner.sound (hs.register named text hnewType)
    -- the placeholder of the definition is there as it was when the body is read
    have hd : s'.registry.definitions.get? (s.registry.freeIdentifier (some label)) =
        some ⟨.unknown, some label⟩ :=
      hext.definitions (by rw [WalkState.register, Registry.get?_register, if_pos rfl])
    by_cases heq : identifier = s.registry.freeIdentifier (some label)
    · -- the definition itself is what is referred to
      exact ⟨_, List.mem_singleton_self _, _, List.mem_singleton_self _, heq ▸ .refl⟩
    · -- anything else was registered while the body was read
      have hmem' : identifier ∈ s'.registry.definitions.keys := by
        rwa [WalkState.complete, Registry.keys_complete] at hmem
      have hnew' :
          identifier ∉ (s.register (checker.keyOf type) label).registry.definitions.keys := by
        rw [WalkState.register, Registry.keys_register, List.mem_append, List.mem_singleton]
        exact not_or.mpr ⟨hnew, heq⟩
      have hinner := ih (hs.register named text hnewType) hmem' hnew'
      exact leads_reference (hinner.behind hd rfl (hdistinct _) hreads readable) _
  | @recurs s type label named inPlace new text inside =>
    rw [WalkState.register, Registry.keys_register, List.mem_append, List.mem_singleton] at hmem
    obtain rfl := hmem.resolve_left hnew
    exact ⟨_, List.mem_singleton_self _, _, List.mem_singleton_self _, .refl⟩
  | inPlace named inPlace new text outside inner readable unmet ih =>
    obtain ⟨-, -, hreads⟩ := inner.sound hs
    exact ⟨_, List.mem_singleton_self _, (ih hs hmem hnew).level (hdistinct _) hreads readable⟩
  | @late s s' type label own nodes named inPlace new text outside inner readable registered ih =>
    obtain ⟨hs', -, hreads⟩ := inner.sound hs
    obtain ⟨definition, hd⟩ := OrderedMap.mem_keys_iff.mp (hs'.valid.mem_keys registered)
    -- the body was not completed while it was being read
    have hplaceholder : definition.node = .unknown :=
      (hs'.standsFor registered hd).placeholder (inner.mem_pending hs inPlace List.mem_cons_self
        (hs.valid.lookup_eq_none_iff.mp new) registered)
    have hmem' : identifier ∈ s'.registry.definitions.keys := by
      rwa [WalkState.complete, Registry.keys_complete] at hmem
    exact leads_reference
      ((ih hs hmem' hnew).behind hd hplaceholder (hdistinct _) hreads readable) _

/-- Everything that was registered from the start on can be reached from the root. -/
theorem connected_of_visits {type : TypeId} {root : Node}
    (h : Visits checker policy start [type] [root] s)
    (hdistinct : ∀ type, ((checker.describe type).properties.map Property.name).Nodup) :
    Extraction.Connected ⟨root, s.registry.definitions⟩ := by
  intro identifier hi
  obtain ⟨node, hn, hlead⟩ := h.leads .empty hdistinct hi List.not_mem_nil
  obtain rfl := List.mem_singleton.mp hn
  exact hlead

end Checker

/-! ## Policies -/

namespace Policy

variable (policy : Policy) {root : Node} {definitions : DefinitionMap}

theorem closed_finish (h : Extraction.Closed ⟨root, definitions⟩) :
    (policy.finish root definitions).Closed := by
  cases policy with
  | named | aliasesOnly => exact h
  | recursiveOnly => exact DefinitionMap.closed_inlineAcyclic h

theorem connected_finish (h : Extraction.Connected ⟨root, definitions⟩) :
    (policy.finish root definitions).Connected := by
  cases policy with
  | named | aliasesOnly => exact h
  | recursiveOnly => exact DefinitionMap.connected_inlineAcyclic h

/-- Inlining into composite bodies leaves them composite. -/
theorem isComposite_finish
    (h : ∀ identifier definition, definitions.get? identifier = some definition →
      definition.node.kind.isComposite = true)
    {identifier : String} {definition : Definition}
    (hd : (policy.finish root definitions).definitions.get? identifier = some definition) :
    definition.node.kind.isComposite = true := by
  cases policy with
  | named | aliasesOnly => exact h identifier definition hd
  | recursiveOnly =>
    rw [finish, DefinitionMap.get?_inlineAcyclic] at hd
    split at hd
    · obtain ⟨old, hold, rfl⟩ := Option.map_eq_some_iff.mp hd
      have hcomposite := h identifier old hold
      have hkind : old.node.kind ≠ .reference := by
        intro hk
        rw [hk] at hcomposite
        cases hcomposite
      rwa [DefinitionMap.inlineInto, Node.substitute_eq _ hkind, Node.kind_mapChildren]
    · cases hd

end Policy

end TypeGraph
