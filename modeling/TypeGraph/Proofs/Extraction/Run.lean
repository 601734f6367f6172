import TypeGraph.Proofs.Extraction.Shape
import TypeGraph.Proofs.Registry.Naming

/-!
# Running walks

A walk is a computation with three layers of effects. `Checker.exec` runs one from a `WalkState`
and shows the outcome beside the state that is left; the lemmas here say what each step of a walk
does to the two, so that no later proof looks into the layers.

Main results:

* `Checker.exec_readShape`, `Checker.exec_walkDefinition`, `Checker.exec_walkInline`: the steps that
  read a level and see to a name.
* `Checker.walk_level`, `Checker.walk_named`: the two things that one level of fuel can do.
-/

namespace TypeGraph

/-! ## Named types -/

namespace TypeInfo

/-- What a named type is registered under. -/
def key (info : TypeInfo) (type : TypeId) : TypeId × List TypeId :=
  (type, if info.aliasName.isSome then info.aliasArguments else info.typeArguments)

end TypeInfo

/-- Whether a policy lets a named type stand in its place as long as it does not recur. -/
def Policy.standsInPlace (policy : Policy) (info : TypeInfo) : Bool :=
  match policy with
  | .aliasesOnly => info.aliasName.isNone
  | .named | .recursiveOnly => false

namespace Checker

/-- The shape of a type. -/
def shapeOf (checker : Checker) (type : TypeId) : Shape := (checker.describe type).shape

def isNamed (checker : Checker) (type : TypeId) : Bool := (checker.describe type).isNamed

def keyOf (checker : Checker) (type : TypeId) : TypeKey := (checker.describe type).key type

@[simp] theorem keyOf_fst (checker : Checker) (type : TypeId) : (checker.keyOf type).1 = type := rfl

/-! ## Running -/

/-- What a walk keeps: the declared types that are being inlined, and the registry. -/
structure WalkState where
  inlining : List TypeKey
  registry : Registry TypeKey

namespace WalkState

variable (s : WalkState)

def register (key : TypeKey) (label : String) : WalkState :=
  { s with registry := (s.registry.register key (some label)).2 }

def complete (identifier : String) (body : Node) : WalkState :=
  { s with registry := s.registry.complete identifier body }

def enter (key : TypeKey) : WalkState := { s with inlining := key :: s.inlining }

def leave (key : TypeKey) : WalkState := { s with inlining := s.inlining.erase key }

end WalkState

/-- Runs a walk; the state that is left is shown whether the walk halts or not. -/
def exec {α : Type} (walk : Walk α) (s : WalkState) : Except Halt α × WalkState :=
  let out := (walk.run.run s.inlining).run s.registry
  (out.1.1, ⟨out.1.2, out.2⟩)

section

variable {α β : Type}

@[simp] theorem exec_pure (value : α) (s : WalkState) : exec (pure value) s = (.ok value, s) := rfl

@[simp] theorem exec_throw (halt : Halt) (s : WalkState) :
    exec (throw halt : Walk α) s = (.error halt, s) := rfl

theorem exec_bind (walk : Walk α) (f : α → Walk β) (s : WalkState) :
    exec (walk >>= f) s =
      match exec walk s with
      | (.ok value, s') => exec (f value) s'
      | (.error halt, s') => (.error halt, s') := by
  simp only [exec, ExceptT.run_bind, StateT.run_bind]
  rcases (walk.run.run s.inlining).run s.registry with ⟨⟨result, inlining⟩, registry⟩
  cases result with
  | ok value => rfl
  | error halt => rfl

@[simp] theorem exec_getRegistry (s : WalkState) :
    exec (getThe (Registry TypeKey) : Walk _) s = (.ok s.registry, s) := rfl

@[simp] theorem exec_getInlining (s : WalkState) :
    exec (getThe (List TypeKey) : Walk _) s = (.ok s.inlining, s) := rfl

@[simp] theorem exec_modifyGetRegistry (f : Registry TypeKey → α × Registry TypeKey)
    (s : WalkState) :
    exec (modifyGetThe (Registry TypeKey) f : Walk _) s =
      (.ok (f s.registry).1, { s with registry := (f s.registry).2 }) := rfl

/-- The type is being inlined while the walk runs, and not afterwards, however the walk ends. -/
theorem exec_whileInlining (key : TypeKey) (walk : Walk α) (s : WalkState) :
    exec (whileInlining key walk) s =
      ((exec walk (s.enter key)).1, (exec walk (s.enter key)).2.leave key) := rfl

end

/-! ## The steps of a walk -/

section

variable (checker : Checker) (type : TypeId) (key : TypeKey) (s : WalkState)

theorem exec_textOf :
    exec (checker.textOf type) s =
      match checker.text type with
      | some label => (.ok label, s)
      | none => (.error .endless, s) := by
  unfold textOf
  cases checker.text type <;> rfl

theorem exec_mapM_cons (visit : TypeId → Walk Node) (types : List TypeId) :
    exec ((type :: types).mapM visit) s =
      match exec (visit type) s with
      | (.ok node, s') =>
        match exec (types.mapM visit) s' with
        | (.ok nodes, s'') => (.ok (node :: nodes), s'')
        | (.error halt, s'') => (.error halt, s'')
      | (.error halt, s') => (.error halt, s') := by
  rw [List.mapM_cons, exec_bind]
  rcases exec (visit type) s with ⟨⟨halt⟩ | ⟨node⟩, s'⟩
  · rfl
  · simp only [exec_bind]
    rcases exec (types.mapM visit) s' with ⟨⟨halt⟩ | ⟨nodes⟩, s''⟩ <;> rfl

/-- A level is read once the types inside are. -/
theorem exec_readShape (visit : TypeId → Walk Node) (shape : Shape) :
    exec (checker.readShape visit type shape) s =
      match exec (shape.inner.mapM visit) s with
      | (.ok nodes, s') =>
        match shape.halt? (checker.text type) with
        | none => (.ok (shape.build (checker.text type) nodes), s')
        | some halt => (.error halt, s')
      | (.error halt, s') => (.error halt, s') := by
  unfold readShape
  rw [exec_bind]
  rcases exec (shape.inner.mapM visit) s with ⟨⟨halt⟩ | ⟨nodes⟩, s'⟩
  · rfl
  · cases shape.halt? (checker.text type) <;> simp only [exec_pure, exec_throw]

/-- A type that does not answer is registered, read and completed, in this order. -/
theorem exec_walkDefinition (body : TypeId → Walk Node) :
    exec (checker.walkDefinition body type key) s =
      match checker.text type with
      | none => (.error .endless, s)
      | some label =>
        match s.registry.lookup key with
        | some reference => (.ok reference, s)
        | none =>
          match exec (body type) (s.register key label) with
          | (.ok node, s') =>
            (.ok (.reference (s.registry.freeIdentifier (some label)) (some label)),
              s'.complete (s.registry.freeIdentifier (some label)) node)
          | (.error halt, s') => (.error halt, s') := by
  unfold walkDefinition Registry.intern
  rw [exec_bind, exec_textOf]
  cases checker.text type with
  | none => rfl
  | some label =>
    simp only [exec_bind, exec_getRegistry]
    cases s.registry.lookup key with
    | some reference => rfl
    | none =>
      simp only [exec_bind, exec_modifyGetRegistry]
      -- the registered state is written out by the computation
      have hregister : { s with registry := (s.registry.register key (some label)).2 } =
          s.register key label := rfl
      rw [hregister]
      rcases exec (body type) (s.register key label) with ⟨⟨halt⟩ | ⟨node⟩, s'⟩ <;> rfl

/-- A type that does not answer is registered inside its own body. Elsewhere it is read, and it
stands in its place unless its name was registered on the way. -/
theorem exec_walkInline (body : TypeId → Walk Node) :
    exec (checker.walkInline body type key) s =
      match s.registry.lookup key with
      | some reference => (.ok reference, s)
      | none =>
        match checker.text type with
        | none => (.error .endless, s)
        | some label =>
          if key ∈ s.inlining then
            (.ok (.reference (s.registry.freeIdentifier (some label)) (some label)),
              s.register key label)
          else
            match exec (body type) (s.enter key) with
            | (.ok node, s') =>
              match s'.registry.identifier? key with
              | none => (.ok node, s'.leave key)
              | some identifier =>
                (.ok (.reference identifier (some label)),
                  (s'.leave key).complete identifier node)
            | (.error halt, s') => (.error halt, s'.leave key) := by
  unfold walkInline
  simp only [exec_bind, exec_getRegistry]
  cases hl : s.registry.lookup key with
  | some reference => rfl
  | none =>
    simp only [exec_bind, exec_textOf]
    cases checker.text type with
    | none => rfl
    | some label =>
      simp only [exec_getInlining, List.contains_iff_mem]
      split
      · -- nothing was registered since the registry was asked
        simp only [exec_modifyGetRegistry, Registry.reserve_eq, hl]
        rfl
      · simp only [exec_bind, exec_whileInlining]
        rcases exec (body type) (s.enter key) with ⟨⟨halt⟩ | ⟨node⟩, s'⟩
        · rfl
        · simp only [exec_getRegistry]
          have hleave : (s'.leave key).registry = s'.registry := rfl
          rw [hleave]
          cases s'.registry.identifier? key <;> rfl

end

/-! ## One level of fuel -/

section

variable (checker : Checker) (policy : Policy) (depth : Nat) (type : TypeId)

/-- Where the name does not count, or there is none, a walk reads the shape. -/
theorem walk_level {mode : Mode} (h : mode = .body ∨ checker.isNamed type = false) :
    checker.walk policy (depth + 1) mode type =
      checker.readShape (checker.walk policy depth .reference) type (checker.shapeOf type) := by
  unfold walk
  rw [readType_eq, shapeOf, TypeInfo.shape]
  cases hr : (checker.describe type).recognised? with
  | some shape => rfl
  | none =>
    cases mode with
    | body => exact readStructure_eq ..
    | reference =>
      have hname : (checker.describe type).aliasName.isSome = false ∧
          (checker.describe type).isDeclared = false := by
        simpa [isNamed, TypeInfo.isNamed, hr] using h
      simp only [walkNamed, hname.1, hname.2, Bool.false_eq_true, if_false]
      exact readStructure_eq ..

/-- Where the name counts, a walk sees to the name, in place or by a definition. -/
theorem walk_named (h : checker.isNamed type = true) :
    checker.walk policy (depth + 1) .reference type =
      if policy.standsInPlace (checker.describe type) then
        checker.walkInline (checker.walk policy depth .body) type (checker.keyOf type)
      else checker.walkDefinition (checker.walk policy depth .body) type (checker.keyOf type) := by
  unfold walk
  rw [readType_eq]
  simp only [isNamed, TypeInfo.isNamed, Bool.and_eq_true, Option.isNone_iff_eq_none,
    Bool.or_eq_true] at h
  rw [h.1]
  unfold walkNamed keyOf TypeInfo.key Policy.standsInPlace
  cases ha : (checker.describe type).aliasName with
  | some name => cases policy <;> simp [ha]
  | none =>
    have hd : (checker.describe type).isDeclared = true := by simpa [ha] using h.2
    cases policy <;> simp [ha, hd]

end

end Checker

end TypeGraph
