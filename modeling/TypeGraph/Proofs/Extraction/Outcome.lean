import TypeGraph.Proofs.Extraction.Place
import TypeGraph.Proofs.Extraction.Visit

/-!
# How a walk ends

A walk ends well exactly at clean places, whatever the policy and whatever was registered before.
`Tracks` is the invariant behind this: the registry holds only types that are clean from here on,
and a named type whose body the walk is inside of is either registered or being inlined, so that it
is answered for at once.

Main results:

* `Visits.tracks`: what a walk has read is clean, and the invariant is kept.
* `fails_of_exec`: a walk that halts has come down to the place where the descent halts, or was cut
  off by its depth along a path that is at least half as long.
-/

namespace TypeGraph.Checker

variable {checker : Checker} {policy : Policy}

/-! ## The invariant -/

/-- A state in which the walk can be inside the bodies of the `known` types. -/
structure Tracks (checker : Checker) (policy : Policy) (known : List TypeId) (s : WalkState) :
    Prop where
  valid : s.registry.Valid
  /-- What is being inlined is known and may stand in its place. -/
  inlining : ∀ key ∈ s.inlining, ∃ type ∈ known, key = checker.keyOf type ∧
    policy.standsInPlace (checker.describe type) = true
  /-- What is known is answered for. -/
  answered : ∀ type ∈ known, checker.isNamed type = true ∧ (checker.text type).isSome = true ∧
    ((s.registry.identifier? (checker.keyOf type)).isSome = true ∨
      checker.keyOf type ∈ s.inlining)
  /-- What is registered is clean. -/
  registered : ∀ key identifier, s.registry.identifier? key = some identifier →
    ∃ type, key = checker.keyOf type ∧ checker.Clean ⟨known, type⟩

theorem Tracks.start : Tracks checker policy [] ⟨[], .empty⟩ where
  valid := .start false
  inlining _ h := absurd h List.not_mem_nil
  answered _ h := absurd h List.not_mem_nil
  registered _ _ h := by cases h

theorem keyOf_injective {type other : TypeId} (h : checker.keyOf type = checker.keyOf other) :
    type = other :=
  congrArg Prod.fst h

section

variable {known : List TypeId} {s : WalkState} {type : TypeId} (h : Tracks checker policy known s)

include h

/-- A type that answers is clean. -/
theorem Tracks.clean_of_lookup {reference : Node}
    (hl : s.registry.lookup (checker.keyOf type) = some reference) :
    checker.Clean ⟨known, type⟩ := by
  have hid : (s.registry.identifier? (checker.keyOf type)).isSome = true := by
    rw [← h.valid.lookup_isSome, hl]
    rfl
  obtain ⟨identifier, hid⟩ := Option.isSome_iff_exists.mp hid
  obtain ⟨other, hkey, hclean⟩ := h.registered _ _ hid
  rwa [keyOf_injective hkey]

/-- What is being inlined is known. -/
theorem Tracks.mem_of_inlining (hin : checker.keyOf type ∈ s.inlining) : type ∈ known := by
  obtain ⟨other, hmem, hkey, -⟩ := h.inlining _ hin
  rwa [keyOf_injective hkey]

/-- A known type that does not answer is being inlined. -/
theorem Tracks.inlining_of_mem (hmem : type ∈ known)
    (hl : s.registry.lookup (checker.keyOf type) = none) :
    checker.keyOf type ∈ s.inlining ∧ policy.standsInPlace (checker.describe type) = true := by
  obtain ⟨-, -, hid | hin⟩ := h.answered type hmem
  · rw [h.valid.lookup_eq_none_iff.mp hl] at hid
    exact absurd hid (by decide)
  · obtain ⟨other, -, hkey, hplace⟩ := h.inlining _ hin
    rw [keyOf_injective hkey] at hin ⊢
    exact ⟨hin, hplace⟩

/-- A type that neither answers nor is being inlined is new. -/
theorem Tracks.not_mem (hl : s.registry.lookup (checker.keyOf type) = none)
    (hout : policy.standsInPlace (checker.describe type) = false ∨
      checker.keyOf type ∉ s.inlining) : type ∉ known := by
  intro hmem
  obtain ⟨hin, hplace⟩ := h.inlining_of_mem hmem hl
  rcases hout with hout | hout
  · rw [hplace] at hout
    exact absurd hout (by decide)
  · exact hout hin

/-! ### Keeping it -/

/-- Registering a type makes it known; it may have been known before. -/
theorem Tracks.register {known' : List TypeId} {label : String}
    (named : checker.isNamed type = true) (text : checker.text type = some label)
    (hl : s.registry.lookup (checker.keyOf type) = none) (htype : type ∈ known')
    (hsub : known ⊆ known') (hold : ∀ other ∈ known', other = type ∨ other ∈ known) :
    Tracks checker policy known' (s.register (checker.keyOf type) label) where
  valid := h.valid.register _ (h.valid.lookup_eq_none_iff.mp hl)
  inlining key hkey := by
    obtain ⟨other, hmem, hother⟩ := h.inlining key hkey
    exact ⟨other, hsub hmem, hother⟩
  answered other hother := by
    -- the type answers by its new identifier, all others as before
    rcases hold other hother with rfl | hmem
    · refine ⟨named, by rw [text]; rfl, .inl ?_⟩
      simp [WalkState.register, Registry.identifier?_register]
    · obtain ⟨hn, ht, hanswer⟩ := h.answered other hmem
      refine ⟨hn, ht, hanswer.imp ?_ id⟩
      intro hid
      simp only [WalkState.register, Registry.identifier?_register]
      split
      · rfl
      · exact hid
  registered key identifier hid := by
    simp only [WalkState.register, Registry.identifier?_register] at hid
    split at hid
    · rename_i hkey
      exact ⟨type, hkey, clean_of_isKnown (isKnown_iff.mpr ⟨named, htype⟩)⟩
    · obtain ⟨other, hkey, hclean⟩ := h.registered key identifier hid
      exact ⟨other, hkey, hclean.mono hsub⟩

/-- Inlining a type makes it known. -/
theorem Tracks.enter {label : String} (named : checker.isNamed type = true)
    (text : checker.text type = some label)
    (inPlace : policy.standsInPlace (checker.describe type) = true) :
    Tracks checker policy (type :: known) (s.enter (checker.keyOf type)) where
  valid := h.valid
  inlining key hkey := by
    -- what is being inlined is now known, and answered for by being inlined
    rcases List.mem_cons.mp hkey with rfl | hkey
    · exact ⟨type, List.mem_cons_self, rfl, inPlace⟩
    · obtain ⟨other, hmem, hother⟩ := h.inlining key hkey
      exact ⟨other, List.mem_cons_of_mem _ hmem, hother⟩
  answered other hother := by
    rcases List.mem_cons.mp hother with rfl | hmem
    · exact ⟨named, by rw [text]; rfl, .inr List.mem_cons_self⟩
    · obtain ⟨hn, ht, hanswer⟩ := h.answered other hmem
      exact ⟨hn, ht, hanswer.imp id (List.mem_cons_of_mem _)⟩
  registered key identifier hid := by
    obtain ⟨other, hkey, hclean⟩ := h.registered key identifier hid
    exact ⟨other, hkey, hclean.mono (List.subset_cons_self _ _)⟩

theorem Tracks.complete (identifier : String) (body : Node) :
    Tracks checker policy known (s.complete identifier body) where
  valid := h.valid.complete identifier body
  inlining := h.inlining
  answered := h.answered
  registered := h.registered

omit h in
/-- Behind a body that turned out clean, its type is not known any more. The types that are still
being inlined are those from before the body. -/
theorem Tracks.behind {s₁ s₂ : WalkState} (h : Tracks checker policy known s)
    (h₁ : Tracks checker policy (type :: known) s₁) (hclean : checker.Clean ⟨known, type⟩)
    (hnew : type ∉ known) (hin : ∀ key ∈ s₁.inlining, key = checker.keyOf type ∨ key ∈ s.inlining)
    (hinlining : s₂.inlining = s.inlining) (hregistry : s₂.registry = s₁.registry) :
    Tracks checker policy known s₂ where
  valid := hregistry ▸ h₁.valid
  inlining := hinlining ▸ h.inlining
  answered other hother := by
    obtain ⟨hn, ht, hanswer⟩ := h₁.answered other (List.mem_cons_of_mem _ hother)
    rw [hregistry, hinlining]
    refine ⟨hn, ht, hanswer.imp id ?_⟩
    intro hkey
    -- what is known without the type is not the type
    refine (hin _ hkey).resolve_left fun heq => hnew ?_
    rwa [← keyOf_injective heq]
  registered key identifier hid := by
    rw [hregistry] at hid
    obtain ⟨other, hkey, hother⟩ := h₁.registered key identifier hid
    exact ⟨other, hkey, hclean.leave hother (fun _ => List.mem_cons.mp) (List.Subset.refl _)⟩

omit h in
/-- The same where the body was read in place. -/
theorem Tracks.leave {s' : WalkState} {types : List TypeId} {nodes : List Node}
    (h : Tracks checker policy known s) (h' : Tracks checker policy (type :: known) s')
    (inner : Visits checker policy (s.enter (checker.keyOf type)) types nodes s')
    (hclean : checker.Clean ⟨known, type⟩) (hnew : type ∉ known) :
    Tracks checker policy known (s'.leave (checker.keyOf type)) := by
  refine h.behind h' hclean hnew ?_ inner.leave_inlining_eq rfl
  intro key hkey
  rw [inner.inlining_eq] at hkey
  exact List.mem_cons.mp hkey

end

/-! ## Walks that end well -/

/-- A new named type with a label is clean if everything inside of its body is. -/
theorem clean_of_inner {known : List TypeId} {type : TypeId} {label : String} (hnew : type ∉ known)
    (named : checker.isNamed type = true) (text : checker.text type = some label)
    (readable : checker.Readable type)
    (hinner : ∀ other ∈ (checker.shapeOf type).inner, checker.Clean ⟨type :: known, other⟩) :
    checker.Clean ⟨known, type⟩ := by
  have label : checker.HasLabel ⟨known, type⟩ := by
    intro _ _
    rw [text]
    rfl
  refine .of_inner (isKnown_eq_false hnew) label readable ?_
  simpa only [knownBelow, named, if_true] using hinner

/-- What a walk has read is clean, and the walk keeps track. -/
theorem Visits.tracks {s s' : WalkState} {types : List TypeId} {nodes : List Node}
    (h : Visits checker policy s types nodes s') :
    ∀ {known : List TypeId}, Tracks checker policy known s →
      (∀ type ∈ types, checker.Clean ⟨known, type⟩) ∧ Tracks checker policy known s' := by
  induction h with
  | nil => exact fun ht => ⟨fun _ hm => absurd hm List.not_mem_nil, ht⟩
  | cons _ _ ihfirst ihrest =>
    intro known ht
    obtain ⟨hfirst, ht⟩ := ihfirst ht
    obtain ⟨hrest, ht⟩ := ihrest ht
    refine ⟨?_, ht⟩
    intro type hm
    rcases List.mem_cons.mp hm with rfl | hm
    · exact hfirst _ List.mem_cons_self
    · exact hrest type hm
  | @level _ _ type _ unnamed _ readable ih =>
    intro known ht
    obtain ⟨hinner, ht⟩ := ih ht
    refine ⟨List.forall_mem_singleton.mpr ?_, ht⟩
    refine .of_inner (by simp [isKnown, unnamed]) ?_ readable ?_
    · intro _ hn
      exact absurd hn (by simp [unnamed])
    · simpa only [knownBelow, unnamed, Bool.false_eq_true, if_false] using hinner
  | met named lookup =>
    intro known ht
    exact ⟨List.forall_mem_singleton.mpr (ht.clean_of_lookup lookup), ht⟩
  | @definition _ _ type _ _ named apart new text inner readable ih =>
    intro known ht
    have hnew := ht.not_mem new (.inl apart)
    -- inside of the body the type is known, behind it again it is not
    have hregister := ht.register named text new List.mem_cons_self
      (List.subset_cons_self _ known) fun _ => List.mem_cons.mp
    obtain ⟨hinner, ht'⟩ := ih hregister
    have hclean := clean_of_inner hnew named text readable hinner
    have hbehind := ht.behind ht' hclean hnew
      (fun key hkey => .inr (inner.inlining_eq ▸ hkey)) inner.inlining_eq rfl
    exact ⟨List.forall_mem_singleton.mpr hclean, hbehind.complete _ _⟩
  | @recurs _ type _ named inPlace new text inside =>
    intro known ht
    -- the type is met inside its own body, so it was known all the time
    have hmem := ht.mem_of_inlining inside
    have hclean : checker.Clean ⟨known, type⟩ := clean_of_isKnown (isKnown_iff.mpr ⟨named, hmem⟩)
    have hregister := ht.register named text new hmem (List.Subset.refl _) fun _ => .inr
    exact ⟨List.forall_mem_singleton.mpr hclean, hregister⟩
  | @inPlace _ _ type _ _ named inPlace new text outside inner readable unmet ih =>
    intro known ht
    have hnew := ht.not_mem new (.inr outside)
    obtain ⟨hinner, ht'⟩ := ih (ht.enter named text inPlace)
    have hclean := clean_of_inner hnew named text readable hinner
    exact ⟨List.forall_mem_singleton.mpr hclean, ht.leave ht' inner hclean hnew⟩
  | @late _ _ type _ _ _ named inPlace new text outside inner readable registered ih =>
    intro known ht
    have hnew := ht.not_mem new (.inr outside)
    obtain ⟨hinner, ht'⟩ := ih (ht.enter named text inPlace)
    have hclean := clean_of_inner hnew named text readable hinner
    exact ⟨List.forall_mem_singleton.mpr hclean, (ht.leave ht' inner hclean hnew).complete _ _⟩

/-! ## Walks that halt -/

/-- A path into the place that costs a walk of the given depth all of it; a place on the path costs
at most two levels. -/
def Strays (checker : Checker) (depth : Nat) (p : Place) : Prop :=
  ∃ path, (p :: path).IsChain checker.Enters ∧ depth ≤ 2 * path.length + 1

/-- A walk of the given depth that starts at the place has a reason to halt. -/
def Fails (checker : Checker) (depth : Nat) (p : Place) (halt : Halt) : Prop :=
  checker.HaltsFrom p halt ∨ halt = .endless ∧ checker.Strays depth p

theorem Fails.mono {depth depth' : Nat} {p : Place} {halt : Halt} (hle : depth ≤ depth')
    (h : checker.Fails depth' p halt) : checker.Fails depth p halt := by
  -- what is too long for a deep walk is too long for a shallow one
  refine h.imp id fun ⟨hhalt, path, hpath, hlength⟩ => ⟨hhalt, path, hpath, ?_⟩
  omega

theorem Fails.head {depth : Nat} {p q : Place} {halt : Halt} (henters : checker.Enters p q)
    (h : checker.Fails depth q halt) : checker.Fails (depth + 2) p halt := by
  rcases h with h | ⟨hhalt, path, hpath, hlength⟩
  · exact .inl (h.head ⟨henters, h.not_clean⟩)
  · refine .inr ⟨hhalt, q :: path, hpath.cons_cons henters, ?_⟩
    rw [List.length_cons]
    omega

theorem fails_of_noDepth {depth : Nat} (hdepth : depth ≤ 1) (p : Place) :
    checker.Fails depth p .endless :=
  .inr ⟨rfl, [], .singleton _, hdepth⟩

section

variable {s s' : WalkState} {known : List TypeId} {depth : Nat} {halt : Halt}

/-- Types that cannot all be read come to one that cannot, behind types that are clean. -/
theorem fails_of_mapM {visit : TypeId → Walk Node}
    (hok : ∀ {type s node s'}, exec (visit type) s = (.ok node, s') →
      Visits checker policy s [type] [node] s')
    (herror : ∀ {type s halt s'}, Tracks checker policy known s →
      exec (visit type) s = (.error halt, s') → checker.Fails depth ⟨known, type⟩ halt)
    {types : List TypeId} (ht : Tracks checker policy known s)
    (h : exec (types.mapM visit) s = (.error halt, s')) :
    ∃ before type after, types = before ++ type :: after ∧
      (∀ other ∈ before, checker.Clean ⟨known, other⟩) ∧
      checker.Fails depth ⟨known, type⟩ halt := by
  -- induction on the types, each of which is read or is the one that cannot be
  induction types generalizing s with
  | nil =>
    rw [List.mapM_nil, exec_pure] at h
    cases h
  | cons type types ih =>
    rw [exec_mapM_cons] at h
    rcases hf : exec (visit type) s with ⟨⟨halt'⟩ | ⟨node⟩, s₁⟩
    · rw [hf] at h
      cases h
      -- the first type cannot be read
      exact ⟨[], type, types, rfl, fun _ hm => absurd hm List.not_mem_nil, herror ht hf⟩
    · obtain ⟨hclean, ht⟩ := (hok hf).tracks ht
      simp only [hf] at h
      rcases hr : exec (types.mapM visit) s₁ with ⟨⟨halt'⟩ | ⟨rest⟩, s₂⟩
      · rw [hr] at h
        cases h
        obtain ⟨before, other, after, rfl, hbefore, hother⟩ := ih ht hr
        refine ⟨type :: before, other, after, rfl, ?_, hother⟩
        intro b hb
        rcases List.mem_cons.mp hb with rfl | hb
        · exact hclean _ List.mem_cons_self
        · exact hbefore b hb
      · rw [hr] at h
        cases h

/-- A level cannot be read because of a type inside or, if all of them can be, for its own
reason. -/
theorem fails_of_readShape (policy : Policy) {visit : TypeId → Walk Node} {p : Place}
    (hok : ∀ {type s node s'}, exec (visit type) s = (.ok node, s') →
      Visits checker policy s [type] [node] s')
    (herror : ∀ {type s halt s'}, Tracks checker policy (checker.knownBelow p) s →
      exec (visit type) s = (.error halt, s') →
      checker.Fails depth ⟨checker.knownBelow p, type⟩ halt)
    (hk : checker.isKnown p = false) (label : checker.HasLabel p)
    (ht : Tracks checker policy (checker.knownBelow p) s)
    (h : exec (checker.readShape visit p.type (checker.shapeOf p.type)) s = (.error halt, s')) :
    checker.Fails (depth + 2) p halt := by
  rw [exec_readShape] at h
  rcases hm : exec ((checker.shapeOf p.type).inner.mapM visit) s with ⟨⟨halt'⟩ | ⟨nodes⟩, s₁⟩
  · -- a type inside cannot be read, and all types before it can
    rw [hm] at h
    cases h
    obtain ⟨before, type, after, heq, hbefore, hfails⟩ := fails_of_mapM hok herror ht hm
    refine hfails.head ⟨label, before.map (⟨checker.knownBelow p, ·⟩),
      after.map (⟨checker.knownBelow p, ·⟩), ?_, ?_⟩
    · simp only [below, hk, Bool.false_eq_true, if_false, heq, List.map_append, List.map_cons]
    · intro b hb
      obtain ⟨other, hother, rfl⟩ := List.mem_map.mp hb
      exact hbefore other hother
  · -- all types inside can be read, so the reason is the level's own
    have hclean := ((visits_of_mapM hok hm).tracks ht).1
    rw [hm] at h
    cases hh : (checker.shapeOf p.type).halt? (checker.text p.type) with
    | none =>
      simp only [hh] at h
      cases h
    | some halt' =>
      simp only [hh] at h
      cases h
      refine .inl ⟨p, .refl, .inr ⟨label, ?_, ?_⟩⟩
      · intro q hq
        obtain ⟨type, htype, rfl⟩ := (mem_below hk).mp hq
        exact hclean type htype
      · rw [haltAt?, if_neg (by simp [hk]), hh]

/-- A new named type without a rendering is where the walk halts. -/
theorem fails_of_noLabel {type : TypeId} (hnew : type ∉ known)
    (named : checker.isNamed type = true) (text : checker.text type = none) :
    checker.Fails depth ⟨known, type⟩ .endless := by
  refine .inl ⟨_, .refl, .inl ⟨?_, rfl⟩⟩
  intro label
  have hsome := label (isKnown_eq_false hnew) named
  rw [text] at hsome
  exact absurd hsome (by decide)

theorem Tracks.not_mem_of_text {type : TypeId} (ht : Tracks checker policy known s)
    (text : checker.text type = none) : type ∉ known := by
  intro hmem
  have hsome := (ht.answered type hmem).2.1
  rw [text] at hsome
  exact absurd hsome (by decide)

theorem fails_of_walkDefinition {body : TypeId → Walk Node} {type : TypeId}
    (hbody : type ∉ known → ∀ {s halt s'}, Tracks checker policy (type :: known) s →
      exec (body type) s = (.error halt, s') → checker.Fails depth ⟨known, type⟩ halt)
    (named : checker.isNamed type = true)
    (apart : policy.standsInPlace (checker.describe type) = false)
    (ht : Tracks checker policy known s)
    (h : exec (checker.walkDefinition body type (checker.keyOf type)) s = (.error halt, s')) :
    checker.Fails depth ⟨known, type⟩ halt := by
  rw [exec_walkDefinition] at h
  -- without a label the walk halts here
  cases htext : checker.text type with
  | none =>
    rw [htext] at h
    cases h
    exact fails_of_noLabel (ht.not_mem_of_text htext) named htext
  | some label =>
    simp only [htext] at h
    cases hl : s.registry.lookup (checker.keyOf type) with
    | some reference =>
      rw [hl] at h
      cases h
    | none =>
      -- the type is registered before its body is read, so it is known there
      have hnew := ht.not_mem hl (.inl apart)
      have ht' := ht.register named htext hl List.mem_cons_self (List.subset_cons_self _ known)
        fun _ => List.mem_cons.mp
      simp only [hl] at h
      rcases hb : exec (body type) (s.register (checker.keyOf type) label)
        with ⟨⟨halt'⟩ | ⟨node'⟩, s₁⟩
      · rw [hb] at h
        cases h
        exact hbody hnew ht' hb
      · rw [hb] at h
        cases h

theorem fails_of_walkInline {body : TypeId → Walk Node} {type : TypeId}
    (hbody : type ∉ known → ∀ {s halt s'}, Tracks checker policy (type :: known) s →
      exec (body type) s = (.error halt, s') → checker.Fails depth ⟨known, type⟩ halt)
    (named : checker.isNamed type = true)
    (inPlace : policy.standsInPlace (checker.describe type) = true)
    (ht : Tracks checker policy known s)
    (h : exec (checker.walkInline body type (checker.keyOf type)) s = (.error halt, s')) :
    checker.Fails depth ⟨known, type⟩ halt := by
  rw [exec_walkInline] at h
  cases hl : s.registry.lookup (checker.keyOf type) with
  | some reference =>
    rw [hl] at h
    cases h
  | none =>
    simp only [hl] at h
    cases htext : checker.text type with
    | none =>
      rw [htext] at h
      cases h
      exact fails_of_noLabel (ht.not_mem_of_text htext) named htext
    | some label =>
      simp only [htext] at h
      by_cases hin : checker.keyOf type ∈ s.inlining
      · rw [if_pos hin] at h
        cases h
      · -- the type is neither registered nor being inlined, so the walk is not inside its body
        have hnew := ht.not_mem hl (.inr hin)
        rw [if_neg hin] at h
        rcases hb : exec (body type) (s.enter (checker.keyOf type)) with ⟨⟨halt'⟩ | ⟨node'⟩, s₁⟩
        · rw [hb] at h
          cases h
          exact hbody hnew (ht.enter named htext inPlace) hb
        · simp only [hb] at h
          cases hid : s₁.registry.identifier? (checker.keyOf type) with
          | none =>
            rw [hid] at h
            cases h
          | some identifier =>
            rw [hid] at h
            cases h

/-- Walks that halt have a reason, both where names count and inside the body of a new type. -/
theorem fails_of_walk (policy : Policy) (depth : Nat) :
    (∀ {known type s halt s'}, Tracks checker policy known s →
      exec (checker.walk policy depth .reference type) s = (.error halt, s') →
      checker.Fails depth ⟨known, type⟩ halt) ∧
    (∀ {known type s halt s'}, type ∉ known → checker.isNamed type = true →
      Tracks checker policy (type :: known) s →
      exec (checker.walk policy depth .body type) s = (.error halt, s') →
      checker.Fails (depth + 1) ⟨known, type⟩ halt) := by
  -- a level of fuel less for each name and each body: a place takes at most two
  induction depth with
  | zero =>
    constructor
    · intro known type s halt s' _ h
      rw [walk, exec_throw] at h
      cases h
      exact fails_of_noDepth (Nat.zero_le 1) _
    · intro known type s halt s' _ _ _ h
      rw [walk, exec_throw] at h
      cases h
      exact fails_of_noDepth (Nat.le_refl 1) _
  | succ depth ih =>
    constructor
    · intro known type s halt s' ht h
      cases hn : checker.isNamed type with
      | false =>
        have hbelow : checker.knownBelow ⟨known, type⟩ = known := by simp [knownBelow, hn]
        have hk : checker.isKnown ⟨known, type⟩ = false := by simp [isKnown, hn]
        have label : checker.HasLabel ⟨known, type⟩ := by
          intro _ hnamed
          rw [hn] at hnamed
          exact absurd hnamed (by decide)
        rw [walk_level _ _ _ _ (.inr hn)] at h
        refine .mono (Nat.le_succ _) (fails_of_readShape policy (fun h => visits_of_exec h) ih.1 hk
          label ?_ h)
        rwa [hbelow]
      | true =>
        rw [walk_named _ _ _ _ hn] at h
        have hbody (hnew : type ∉ known) {s halt s'}
            (ht : Tracks checker policy (type :: known) s)
            (h : exec (checker.walk policy depth .body type) s = (.error halt, s')) :=
          ih.2 hnew hn ht h
        split at h
        · rename_i hp
          exact fails_of_walkInline hbody hn hp ht h
        · rename_i hp
          exact fails_of_walkDefinition hbody hn (by simpa using hp) ht h
    · intro known type s halt s' hnew hn ht h
      have hbelow : checker.knownBelow ⟨known, type⟩ = type :: known := by simp [knownBelow, hn]
      rw [walk_level _ _ _ _ (.inl rfl)] at h
      have label : checker.HasLabel ⟨known, type⟩ :=
        fun _ _ => (ht.answered type List.mem_cons_self).2.1
      refine fails_of_readShape policy (fun h => visits_of_exec h) ih.1 (isKnown_eq_false hnew)
        label ?_ h
      rwa [hbelow]

/-- A walk that halts has a reason. -/
theorem fails_of_exec {type : TypeId} (ht : Tracks checker policy known s)
    (h : exec (checker.walk policy depth .reference type) s = (.error halt, s')) :
    checker.Fails depth ⟨known, type⟩ halt :=
  (fails_of_walk policy depth).1 ht h

end

end TypeGraph.Checker
