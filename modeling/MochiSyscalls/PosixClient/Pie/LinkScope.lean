import MochiSyscalls.PosixClient.Pie.Image
import MochiSyscalls.Foundations.Emissions

/-! # Link scopes

A set of captured objects that are linked together, object zero first. `Scope.new` checks the set and derives the order
of symbol search from the dependency graph; `Scope.lifecycle` plans the order of initialization and finalization. Both
walk the graph iteratively in scratch space of the caller, and indexing outside of it is an outcome of its own. -/

namespace MochiSyscalls.PosixClient.Pie
open Foundations Checked Loops Effects Emissions
set_option autoImplicit false

/-- How a walk over the scratch space ends early: with an error it returns, or outside of an array. -/
inductive Fault where
  | returned (e : Error)
  | panicked
  deriving DecidableEq

structure Object where
  name : List UInt8
  image : Pie
  bias : ℕ

structure Scope where
  objects : List Object
  order : List ℕ

variable (objects : List Object)

def position (name : List UInt8) : Option ℕ := objects.findIdx? fun object => object.name = name

/-! ## The checks on the objects -/

/-- The pages an object takes: its metadata and its LOADs. -/
def ranges (object : Object) : Except Error (List (ℕ × ℕ)) := do
  let image := object.image
  image.foldSegments (fun _ _ s =>
    if s.kind = Kind.load ∧ s.memory ≠ 0 then do
      let _ ← page (← add (← add s.address object.bias) s.memory)
      pure ()
    else .ok ()) ()
  let metadata ← image.metadataBytes
  let base ← image.metadataAddress object.bias
  let metadataEnd ← add base metadata
  pure ((base, metadataEnd) :: (List.range image.count).filterMap fun index =>
    match image.segment index with
    | .ok s =>
      if s.kind = Kind.load ∧ s.memory ≠ 0 then
        some (pageDown (s.address + object.bias), pageDown (s.address + object.bias + s.memory + (pageSize - 1)))
      else none
    | .error _ => none)

/-- A range lies in user memory and apart from those of the objects before. -/
def checkRange (before : List Object) (range : ℕ × ℕ) : Except Error Unit := do
  reject (range.1 < userMin ∨ range.2 > userEnd) .invalid
  before.forM fun other => do
    (← ranges other).forM fun previous => reject (range.1 < previous.2 ∧ previous.1 < range.2) .invalid

variable (index : ℕ)

def checkObject (object : Object) : Except Error Unit := do
  let _ ← if index = 0 then pure () else do reject ((← object.image.hasCopies) = true) .invalid
  reject (object.image.fixed = true ∧ (index ≠ 0 ∨ object.bias ≠ 0)) .invalid
  reject (∃ other ∈ objects.take index, object.name = other.name) .invalid
  reject (object.bias % object.image.alignment ≠ 0) .invalid
  (← ranges object).forM (checkRange (objects.take index))

/-! ## Breadth-first order -/

/-- A dependency: found by name, and appended to the order if it is not in it. -/
def discover (capacity : ℕ) (order : List ℕ) (name : List UInt8) : Except Fault (List ℕ) := do
  let index ← okOr (position objects name) (.returned .unsupported)
  if index ∈ order then pure order
  else do
    reject (order.length ≥ capacity) .panicked
    pure (order ++ [index])

def breadthFirst (capacity : ℕ) : Loop (List ℕ × ℕ) (List ℕ) Fault where
  body s :=
    if s.2 < s.1.length then do
      reject (s.2 ≥ capacity) .panicked
      let index ← okOr s.1[s.2]? .panicked
      let object ← okOr objects[index]? .panicked
      let order ← object.image.dependencies .returned (discover objects capacity) s.1
      pure (.again (order, s.2 + 1))
    else .ok (.done s.1)
  measure s := capacity - s.2
  descends s s' h := by
    split at h
    · obtain ⟨_, hcap, h⟩ := bind_eq_ok.1 h
      iterate 3 obtain ⟨_, _, h⟩ := bind_eq_ok.1 h
      cases h
      have hlt := reject_eq_ok.1 hcap
      simp only
      omega
    · cases h

/-! ## Symbols of a scope -/

namespace Scope

variable (scope : Scope)

/-- The first object in search order that defines a name, with what is found there. -/
def search {α : Type} (name : List UInt8) (required : Version) (check : ℕ → Entry → Except Error (Option α)) :
    List ℕ → Except Error (Option α)
  | [] => .ok none
  | candidate :: rest => do
    match ← (match (scope.objects[candidate]?).bind (·.image.symbols) with
      | some table => do
        match ← table.findVersioned name required with
        | some symbol => check candidate symbol
        | none => pure none
      | none => pure none : Except Error (Option α)) with
    | some a => pure (some a)
    | none => search name required check rest

def definition (origin index : ℕ) : Except Error (Option (ℕ × Definition × ℕ)) := do
  let object ← okOr scope.objects[origin]? .invalid
  let table ← okOr object.image.symbols .unsupported
  let reference ← table.entry index
  let isLocal := reference.binding = 0 ∨ reference.visibility ≠ 0 ∨ reference.version = .local
  let missing : Except Error (Option (ℕ × Definition × ℕ)) :=
    if reference.binding = 2 then .ok none else .error .unsupported
  let search : Except Error (Option (ℕ × Definition × ℕ)) := do
    match ← scope.search reference.name reference.version (fun candidate symbol =>
      .ok (symbol.definition.map fun definition => (candidate, definition, symbol.size))) scope.order with
    | some found => pure (some found)
    | none => missing
  if isLocal ∨ object.image.symbolic = true then
    match reference.definition with
    | some definition => .ok (some (origin, definition, reference.size))
    | none => if isLocal then missing else search
  else search

/-- The image of an object that the scope itself has named. -/
def image (index : ℕ) : Except Error Pie := okOr (scope.objects[index]?.map (·.image)) .invalid

/-- The TLS block of one more object, below those before. -/
def addTls (distance : ℕ) (member : Object) : Except Error ℕ := do
  match ← member.image.tlsTemplate 0 with
  | some template => okOr (StaticTls.distanceAfter distance template) .overflow
  | none => pure distance

def tlsDistance (members : List Object) : Except Error ℕ := members.foldlM addTls 0

def tlsTarget (origin index : ℕ) : Except Error (ℕ × ℕ) :=
  if index = 0 then .ok (origin, 0)
  else do
    let (object, definition, _) ← okOr (← scope.definition origin index) .unsupported
    let offset ← (← scope.image object).tlsDefinition definition
    pure (object, offset)

def resolveTls (kind object offset : ℕ) : Except Error ℕ :=
  if kind = 16 then .ok (object + 1)
  else if kind = 17 then .ok offset
  else if kind = 18 then do
    let distance ← tlsDistance (scope.objects.take (object + 1))
    reject (distance ≥ 2 ^ 63) .overflow
    pure ((offset + (wordLimit - distance)) % wordLimit)
  else .error .unsupported

def resolve (origin index kind : ℕ) : Except Error ℕ :=
  if kind = 32 ∨ kind = 33 then do
    match ← scope.definition origin index with
    | none => pure 0
    | some (object, definition, size) => (← scope.image object).definitionSize definition size
  else if kind = 0 then do
    match ← scope.definition origin index with
    | none => pure 0
    | some (object, definition, _) =>
      let object ← okOr scope.objects[object]? .invalid
      (← object.image.definitionValue definition).at object.bias
  else do
    let (object, offset) ← scope.tlsTarget origin index
    let _ ← okOr (← (← scope.image object).tlsTemplate 0) .invalid
    scope.resolveTls kind object offset

def copySource (index : ℕ) : Except Error (Option (ℕ × ℕ × ℕ)) := do
  let root ← okOr ((scope.objects[0]?).bind (·.image.symbols)) .invalid
  let reference ← root.entry index
  match reference.definition with
  | some (.image _ destinationSize) => do
    let found ← scope.search reference.name reference.version (fun candidate symbol =>
      match symbol.definition with
      | some (.image value size) => do
        reject ((symbol.kind ≠ 0 ∧ symbol.kind ≠ 1) ∨ symbol.visibility ≠ 0) .unsupported
        let _ ← (← scope.image candidate).definitionValue (.image value size)
        pure (some (candidate, value, min size destinationSize))
      | _ => .error .invalid) (scope.order.drop 1)
    match found with
    | some source => pure (some source)
    | none => if reference.binding = 2 then pure none else .error .unsupported
  | _ => .error .invalid

end Scope

/-! ## Version requirements -/

def provider (objects : List Object) (file : List UInt8) : List ℕ → Except Error (Option Object)
  | [] => .ok none
  | index :: rest =>
    match objects[index]? with
    | none => provider objects file rest
    | some candidate => do
      if candidate.name = file then pure (some candidate)
      else if (← candidate.image.soname) = some file then pure (some candidate)
      else provider objects file rest

def checkRequirement (order : List ℕ) (file name : List UInt8) (hash : ℕ) (weak : Bool) : Except Error Unit := do
  let provider ← okOr (← provider objects file order) .invalid
  let available ← okOr provider.image.symbols .invalid
  reject ((← available.provides name hash) = false ∧ weak = false) .unsupported

def checkRequirements (order : List ℕ) : Except Error Unit :=
  objects.forM fun object =>
    match object.image.symbols with
    | some table => table.requirements (fun _ file name hash weak => checkRequirement objects order file name hash weak) ()
    | none => .ok ()

def Scope.checkCopies (scope : Scope) (root : Object) : Except Error Unit :=
  root.image.relocations (fun _ _ value =>
    match value with
    | .copy index _ => do
      let _ ← scope.copySource index
      pure ()
    | _ => .ok ()) ()

/-- `Scope::new`, with scratch space for `scratch` indices. -/
def Scope.new (scratch : ℕ) : Except Fault Scope := do
  let root ← okOr objects.head? (.returned .bufferTooSmall)
  reject (scratch < objects.length) (.returned .bufferTooSmall)
  (objects.zipIdx.forM fun object => checkObject objects object.2 object.1).mapError .returned
  let order ← (breadthFirst objects scratch).run ([0], 0)
  reject (order.length ≠ objects.length) (.returned .invalid)
  (checkRequirements objects order).mapError .returned
  let scope := Scope.mk objects order
  (scope.checkCopies root).mapError .returned
  pure scope

/-! ## Lifecycle plans -/

/-- The scratch space of a depth-first walk; a frame is an object and the ordinal of its next dependency. -/
structure Walk where
  states : List ℕ
  frames : List (ℕ × ℕ)
  order : List ℕ

structure Plan where
  scope : Scope
  order : List ℕ

namespace Scope

variable (scope : Scope)

/-- The visitor that keeps the dependency with a given ordinal. -/
def selectOrdinal (next : ℕ) (s : Option ℕ × ℕ) (name : List UInt8) : Except Fault (Option ℕ × ℕ) :=
  if s.2 = next then do
    let index ← okOr (position scope.objects name) (.returned .invalid)
    pure (some index, s.2 + 1)
  else .ok (s.1, s.2 + 1)

def dependency (image : Pie) (next : ℕ) : Except Fault (Option ℕ) := do
  let (dependency, _) ← image.dependencies .returned (scope.selectOrdinal next) (none, 0)
  pure dependency

/-- Enter the next dependency of the object on top, or leave the object; the order is written into a rest of `room`
cells. -/
def lifecycleStep (room : ℕ) (w : Walk) : Except Fault (Pass Walk (List ℕ)) :=
  match w.frames with
  | [] => do
    reject (w.order.length ≠ scope.objects.length) (.returned .invalid)
    pure (.done w.order)
  | (object, next) :: below => do
    let image ← okOr (scope.objects[object]?.map (·.image)) .panicked
    match ← scope.dependency image next with
    | some dependency => do
      let state ← okOr w.states[dependency]? .panicked
      if state = 0 then do
        reject (w.frames.length ≥ scope.objects.length) .panicked
        pure (.again ⟨w.states.set dependency 1, (dependency, 0) :: (object, next + 1) :: below, w.order⟩)
      else pure (.again ⟨w.states, (object, next + 1) :: below, w.order⟩)
    | none => do
      reject (object ≥ w.states.length) .panicked
      reject (w.order.length ≥ room) .panicked
      pure (.again ⟨w.states.set object 2, below, w.order ++ [object]⟩)

/-- `Scope::lifecycle` with `scratch` words of scratch space, for a number of passes of its loop. -/
def lifecycle (scratch passes : ℕ) : Option (Except Fault Plan) :=
  let count := scope.objects.length
  if 4 * count ≥ wordLimit then some (.error (.returned .overflow))
  else if scratch < 4 * count then some (.error (.returned .bufferTooSmall))
  else if (scope.objects.drop 1).any (fun object => object.image.lifecycle.preinit.count ≠ 0) then
    some (.error (.returned .unsupported))
  else
    (runFor (scope.lifecycleStep (scratch - 3 * count)) passes
      ⟨(List.replicate count 0).set 0 1, [(0, 0)], []⟩).map fun r => r.map fun order => ⟨scope, order⟩

end Scope

/-! ## The calls of a plan -/

inductive Step where
  | function (object address : ℕ)
  | array (object address count : ℕ) (reverse : Bool)
  deriving DecidableEq

/-- What a plan does: it emits steps, and may end with an error. -/
abbrev Emit := Eff (List Step) Error

namespace Plan

variable (plan : Plan)

def object (index : ℕ) : Emit Object := Eff.lift (Outcome.ofOption plan.scope.objects[index]?)

/-- `add`, inside a plan. -/
def addBias (address bias : ℕ) : Emit ℕ :=
  Eff.lift (if address + bias < wordLimit then .value (address + bias) else .failed .overflow)

def array (object : ℕ) (array : Array) (reverse : Bool) : Emit Unit :=
  if array.count ≠ 0 then do
    let address ← addBias array.address (← plan.object object).bias
    emit (.array object address array.count reverse)
  else pure ()

def function (object address : ℕ) : Emit Unit :=
  if address ≠ 0 then do
    let address ← addBias address (← plan.object object).bias
    emit (.function object address)
  else pure ()

def visitInit (object : ℕ) : Emit Unit := do
  let metadata := (← plan.object object).image.lifecycle
  plan.function object metadata.init
  plan.array object metadata.initArray false

def visitFini (object : ℕ) : Emit Unit := do
  let metadata := (← plan.object object).image.lifecycle
  plan.array object metadata.finiArray true
  plan.function object metadata.fini

def initializers : Emit Unit := do
  plan.array 0 (← plan.object 0).image.lifecycle.preinit false
  plan.order.forM plan.visitInit

def finalizers : Emit Unit := plan.order.reverse.forM plan.visitFini

end Plan

end MochiSyscalls.PosixClient.Pie
