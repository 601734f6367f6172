import TypeGraph.Proofs.Extraction.Visit
import TypeGraph.Proofs.Registry.Growth

/-!
# What a walk leaves behind

`Reads` says what types are read as, once all names are known: it is the walk without its registry,
where a named type is the reference to the identifier that it has in the end. The registry grows
while types are read, and `Sound` is the invariant that carries reading through this: every complete
definition is what its type reads as by the names of the present, and stays so when names are added.

Main results:

* `Visits.sound`: a walk keeps its registry sound, and the nodes are what the types read as.
* `Visits.pending`: whatever is left as a placeholder belongs to a type that is still being inlined.
* `exists_reads_of_extract`: at the end of an extraction nothing is left as a placeholder.
-/

namespace TypeGraph.Checker

/-! ## Reading by names -/

/-- The types are read as the nodes, where `names` are the identifiers of named types. -/
inductive Reads (checker : Checker) (policy : Policy) (names : TypeKey → Option String) :
    List TypeId → List Node → Prop where
  | nil : Reads checker policy names [] []
  | cons {type : TypeId} {types : List TypeId} {node : Node} {nodes : List Node}
      (first : Reads checker policy names [type] [node])
      (rest : Reads checker policy names types nodes) :
      Reads checker policy names (type :: types) (node :: nodes)
  | level {type : TypeId} {nodes : List Node} (unnamed : checker.isNamed type = false)
      (inner : Reads checker policy names (checker.shapeOf type).inner nodes)
      (readable : checker.Readable type) :
      Reads checker policy names [type] [checker.bodyOf type nodes]
  | named {type : TypeId} {identifier label : String} (named : checker.isNamed type = true)
      (identifier? : names (checker.keyOf type) = some identifier)
      (text : checker.text type = some label) :
      Reads checker policy names [type] [.reference identifier (some label)]
  | inPlace {type : TypeId} {nodes : List Node} (named : checker.isNamed type = true)
      (inPlace : policy.standsInPlace (checker.describe type) = true)
      (inner : Reads checker policy names (checker.shapeOf type).inner nodes)
      (readable : checker.Readable type) :
      Reads checker policy names [type] [checker.bodyOf type nodes]

/-- A type is read as the body of its own definition. -/
def ReadsBody (checker : Checker) (policy : Policy) (names : TypeKey → Option String)
    (type : TypeId) (body : Node) : Prop :=
  ∃ nodes, Reads checker policy names (checker.shapeOf type).inner nodes ∧
    checker.Readable type ∧ body = checker.bodyOf type nodes

section

variable {checker : Checker} {policy : Policy} {names names' : TypeKey → Option String}

/-- More names change nothing that could be read without them. -/
theorem Reads.mono {types : List TypeId} {nodes : List Node}
    (h : Reads checker policy names types nodes)
    (hnames : ∀ {key identifier}, names key = some identifier → names' key = some identifier) :
    Reads checker policy names' types nodes := by
  induction h with
  | nil => exact .nil
  | cons _ _ ihfirst ihrest => exact .cons ihfirst ihrest
  | level unnamed _ readable ih => exact .level unnamed ih readable
  | named named identifier? text => exact .named named (hnames identifier?) text
  | inPlace named inPlace _ readable ih => exact .inPlace named inPlace ih readable

theorem ReadsBody.mono {type : TypeId} {body : Node} (h : ReadsBody checker policy names type body)
    (hnames : ∀ {key identifier}, names key = some identifier → names' key = some identifier) :
    ReadsBody checker policy names' type body := by
  obtain ⟨nodes, hinner, hreadable, rfl⟩ := h
  exact ⟨nodes, hinner.mono hnames, hreadable, rfl⟩

/-- As many nodes as types. -/
theorem Reads.length_eq {types : List TypeId} {nodes : List Node}
    (h : Reads checker policy names types nodes) : types.length = nodes.length := by
  induction h with
  | nil | level | named | inPlace => rfl
  | cons _ _ _ ihrest => rw [List.length_cons, List.length_cons, ihrest]

end

/-! ## Sound registries -/

variable {checker : Checker} {policy : Policy}

/-- How a definition stands for the type of its key. -/
structure StandsFor (checker : Checker) (policy : Policy) (registry : Registry TypeKey)
    (identifier : String) (definition : Definition) (key : TypeKey) : Prop where
  key_eq : key = checker.keyOf key.1
  named : checker.isNamed key.1 = true
  label : ∃ label, checker.text key.1 = some label ∧ definition.label = some label
  placeholder : identifier ∈ registry.pending → definition.node = .unknown
  body : identifier ∉ registry.pending →
    ReadsBody checker policy registry.identifier? key.1 definition.node

/-- Every definition stands for the type of its key. -/
structure Sound (checker : Checker) (policy : Policy) (registry : Registry TypeKey) : Prop where
  valid : registry.Valid
  standsFor : ∀ {key : TypeKey} {identifier : String} {definition : Definition},
    registry.identifier? key = some identifier →
    registry.definitions.get? identifier = some definition →
    StandsFor checker policy registry identifier definition key

theorem Sound.empty : Sound checker policy .empty where
  valid := .start false
  standsFor h := by cases h

section

variable {registry : Registry TypeKey} (h : Sound checker policy registry)

include h

/-- What a registered type answers with is what it reads as. -/
theorem Sound.reads_of_lookup {type : TypeId} {reference : Node}
    (named : checker.isNamed type = true)
    (hl : registry.lookup (checker.keyOf type) = some reference) :
    Reads checker policy registry.identifier? [type] [reference] := by
  unfold Registry.lookup at hl
  cases hi : registry.identifier? (checker.keyOf type) with
  | none =>
    rw [hi] at hl
    cases hl
  | some identifier =>
    obtain ⟨definition, hd⟩ := OrderedMap.mem_keys_iff.mp (h.valid.mem_keys hi)
    obtain ⟨label, htext, hlabel⟩ := (h.standsFor hi hd).label
    simp only [hi, Option.bind_eq_bind, Option.bind_some, DefinitionMap.reference?, hd,
      Option.map_some, hlabel, Option.some.injEq] at hl
    rw [← hl]
    exact .named named hi htext

/-- Registering a named type leaves a placeholder for it. -/
theorem Sound.register {type : TypeId} {label : String} (named : checker.isNamed type = true)
    (text : checker.text type = some label)
    (hnew : registry.identifier? (checker.keyOf type) = none) :
    Sound checker policy (registry.register (checker.keyOf type) (some label)).2 where
  valid := h.valid.register _ hnew
  standsFor {key identifier definition} hi hd := by
    have hext := Registry.Extends.register registry (some label) hnew
    -- the new key, and the others one by one: only more names are known for their bodies
    rw [Registry.identifier?_register] at hi
    split at hi
    · rename_i hkey
      obtain rfl := Option.some.inj hi
      rw [Registry.get?_register, if_pos rfl] at hd
      obtain rfl := Option.some.inj hd
      rw [hkey]
      exact ⟨rfl, named, ⟨label, text, rfl⟩, fun _ => rfl,
        fun hpending => absurd (by simp) hpending⟩
    · have hmem := h.valid.mem_keys hi
      obtain ⟨old, hold⟩ := OrderedMap.mem_keys_iff.mp hmem
      obtain rfl := Option.some.inj ((hext.definitions hold).symm.trans hd)
      have hstands := h.standsFor hi hold
      refine ⟨hstands.key_eq, hstands.named, hstands.label, ?_, ?_⟩
      · intro hp
        exact hstands.placeholder ((hext.pending hmem).mp hp)
      · intro hp
        exact (hstands.body (mt (hext.pending hmem).mpr hp)).mono hext.identifiers

/-- Completing a definition with what its type reads as makes it stand for the type. -/
theorem Sound.complete {key : TypeKey} {identifier : String} {body : Node}
    (hi : registry.identifier? key = some identifier)
    (hbody : ReadsBody checker policy registry.identifier? key.1 body) :
    Sound checker policy (registry.complete identifier body) where
  valid := h.valid.complete identifier body
  standsFor {other identifier' definition} ho hd := by
    -- completing touches one definition, which belongs to one key
    rw [Registry.identifier?_complete] at ho
    rw [Registry.get?_complete] at hd
    split at hd
    · rename_i heq
      subst heq
      obtain rfl := h.valid.key_unique hi ho
      obtain ⟨old, hold, rfl⟩ := Option.map_eq_some_iff.mp hd
      have hstands := h.standsFor hi hold
      refine ⟨hstands.key_eq, hstands.named, hstands.label, ?_, fun _ => hbody⟩
      intro hp
      exact absurd rfl ((Registry.mem_pending_complete ..).mp hp).2
    · rename_i hne
      have hstands := h.standsFor ho hd
      have hpending : identifier' ∈ (registry.complete identifier body).pending ↔
          identifier' ∈ registry.pending :=
        (Registry.mem_pending_complete ..).trans (and_iff_left hne)
      exact ⟨hstands.key_eq, hstands.named, hstands.label,
        fun hp => hstands.placeholder (hpending.mp hp), fun hp => hstands.body (mt hpending.mpr hp)⟩

/-- Where nothing is pending, every definition is what the type of its key reads as. -/
theorem Sound.readsBody (hpending : registry.pending = []) {key : TypeKey} {identifier : String}
    {definition : Definition} (hi : registry.identifier? key = some identifier)
    (hd : registry.definitions.get? identifier = some definition) :
    ReadsBody checker policy registry.identifier? key.1 definition.node := by
  refine (h.standsFor hi hd).body ?_
  rw [hpending]
  exact List.not_mem_nil

end

/-! ## Walks -/

variable {s s' : WalkState} {types : List TypeId} {nodes : List Node}

/-- A walk keeps its registry sound, changes nothing that was there, and reads the types. -/
theorem Visits.sound (h : Visits checker policy s types nodes s')
    (hs : Sound checker policy s.registry) :
    Sound checker policy s'.registry ∧ s.registry.Extends s'.registry ∧
      Reads checker policy s'.registry.identifier? types nodes := by
  -- induction on the walk; bodies are read by the names of the moment and go on being read so
  -- when names are added
  induction h with
  | nil => exact ⟨hs, .refl _, .nil⟩
  | cons _ _ ihfirst ihrest =>
    obtain ⟨hs₁, hext₁, hfirst⟩ := ihfirst hs
    obtain ⟨hs₂, hext₂, hrest⟩ := ihrest hs₁
    exact ⟨hs₂, hext₁.trans hext₂, .cons (hfirst.mono hext₂.identifiers) hrest⟩
  | level unnamed _ readable ih =>
    obtain ⟨hs₁, hext, hinner⟩ := ih hs
    exact ⟨hs₁, hext, .level unnamed hinner readable⟩
  | met named lookup => exact ⟨hs, .refl _, hs.reads_of_lookup named lookup⟩
  | @definition s s' type label nodes named apart new text inner readable ih =>
    have hnew := hs.valid.lookup_eq_none_iff.mp new
    obtain ⟨hs₁, hext, hinner⟩ := ih (hs.register named text hnew)
    -- the name given before the body was read is the name afterwards
    have hi : s'.registry.identifier? (checker.keyOf type) =
        some (s.registry.freeIdentifier (some label)) :=
      hext.identifiers (by simp [WalkState.register, Registry.identifier?_register])
    have hext' := (Registry.Extends.register _ _ hnew).trans hext
    exact ⟨hs₁.complete hi ⟨nodes, hinner, readable, rfl⟩,
      hext'.complete (s.registry.freeIdentifier_not_mem _) _, .named named hi text⟩
  | @recurs s type label named inPlace new text inside =>
    have hnew := hs.valid.lookup_eq_none_iff.mp new
    refine ⟨hs.register named text hnew, .register _ _ hnew, .named named ?_ text⟩
    simp [WalkState.register, Registry.identifier?_register]
  | inPlace named inPlace new text outside inner readable unmet ih =>
    obtain ⟨hs₁, hext, hinner⟩ := ih hs
    exact ⟨hs₁, hext, .inPlace named inPlace hinner readable⟩
  | late named inPlace new text outside inner readable registered ih =>
    obtain ⟨hs₁, hext, hinner⟩ := ih hs
    -- the definition came up inside the body, so nothing from before it is touched
    have hnew :=
      hext.not_mem_keys hs.valid hs₁.valid (hs.valid.lookup_eq_none_iff.mp new) registered
    have hcomplete := hs₁.complete registered ⟨_, hinner, readable, rfl⟩
    exact ⟨hcomplete, hext.complete hnew _, .named named registered text⟩

/-- Placeholders that a walk leaves behind belong to types that are still being inlined. -/
theorem Visits.pending (h : Visits checker policy s types nodes s')
    (hs : Sound checker policy s.registry) {identifier : String}
    (hp : identifier ∈ s'.registry.pending) :
    identifier ∈ s.registry.pending ∨
      ∃ key ∈ s.inlining, s'.registry.identifier? key = some identifier := by
  induction h with
  | nil | met => exact .inl hp
  | cons hfirst hrest ihfirst ihrest =>
    obtain ⟨hs₁, -, -⟩ := hfirst.sound hs
    obtain ⟨-, hext, -⟩ := hrest.sound hs₁
    rcases ihrest hs₁ hp with hp | ⟨key, hkey, hi⟩
    · rcases ihfirst hs hp with hp | ⟨key, hkey, hi⟩
      · exact .inl hp
      · exact .inr ⟨key, hkey, hext.identifiers hi⟩
    · exact .inr ⟨key, hfirst.inlining_eq ▸ hkey, hi⟩
  | level _ _ _ ih => exact ih hs hp
  | definition named apart new text inner readable ih =>
    obtain ⟨hp, hne⟩ := (Registry.mem_pending_complete ..).mp hp
    -- the own placeholder is completed, so what is left was there before
    rcases ih (hs.register named text (hs.valid.lookup_eq_none_iff.mp new)) hp with hp | hkey
    · exact .inl ((List.mem_cons.mp hp).resolve_left hne)
    · exact .inr hkey
  | @recurs s type label named inPlace new text inside =>
    rcases List.mem_cons.mp hp with rfl | hp
    · exact .inr ⟨_, inside, by simp [WalkState.register, Registry.identifier?_register]⟩
    · exact .inl hp
  | inPlace named inPlace new text outside inner readable unmet ih =>
    rcases ih hs hp with hp | ⟨key, hkey, hi⟩
    · exact .inl hp
    · refine .inr ⟨key, (List.mem_cons.mp hkey).resolve_left ?_, hi⟩
      -- the type that was inlined is not registered, so no placeholder is its own
      rintro rfl
      rw [unmet] at hi
      exact Option.some_ne_none _ hi.symm
  | late named inPlace new text outside inner readable registered ih =>
    obtain ⟨hp, hne⟩ := (Registry.mem_pending_complete ..).mp hp
    rcases ih hs hp with hp | ⟨key, hkey, hi⟩
    · exact .inl hp
    · refine .inr ⟨key, (List.mem_cons.mp hkey).resolve_left ?_, hi⟩
      rintro rfl
      exact hne (Option.some.inj (hi.symm.trans registered))

/-- From the start, a walk leaves nothing as a placeholder. -/
theorem Visits.pending_eq_nil {type : TypeId} {root : Node}
    (h : Visits checker policy start [type] [root] s) : s.registry.pending = [] := by
  refine List.eq_nil_iff_forall_not_mem.mpr ?_
  intro identifier hp
  rcases h.pending .empty hp with hp | ⟨key, hkey, -⟩
  · exact absurd hp List.not_mem_nil
  · exact absurd hkey List.not_mem_nil

/-- The registry behind an extraction is sound and complete, and its root is what the type reads
as. -/
theorem exists_reads_of_extract {type : TypeId} {extraction : Extraction}
    (h : checker.extract policy type = .ok extraction) :
    ∃ root registry, extraction = policy.finish root registry.definitions ∧
      Sound checker policy registry ∧ registry.pending = [] ∧
      Reads checker policy registry.identifier? [type] [root] := by
  obtain ⟨root, s, hvisits, -, heq⟩ := exists_visits_of_extract h
  obtain ⟨hsound, -, hreads⟩ := hvisits.sound .empty
  exact ⟨root, s.registry, heq, hsound, hvisits.pending_eq_nil, hreads⟩

end TypeGraph.Checker
