import Axiomc.Foundation.Fallible
import Axiomc.Foundation.Sorting
import Mathlib.Algebra.Group.Nat.Defs

/-!
# The lifecycle runtime

The target-neutral ownership state machine of `runtime_lifecycle.rs`.  A runtime holds allocations,
the owner tokens that stand for them, borrows, host resources and a stack of scopes; every operation
appends a `LifecycleOperation` to a log.

A method of the source takes `&mut self` and returns a `Result`, so it keeps whatever it changed
before it failed: `Lifecycle α` is state passing in which a failed call keeps its state.  A call can
stop in three ways:

* `error`: the `LifecycleError` the source returns;
* `panic`: an `expect`, or a slice operation of the standard library, that fires;
* `exhausted`: the walk to the root and the two recursions over an aggregate are given as many
  rounds as there are owners, plus one, and this says that they were not enough.

Identifiers are drawn from one counter.  The source keeps it in a `u64`; each draw is followed by a
log entry, so the counter could only wrap after more log entries than an address space holds
(`Inv.drawn`), and it is a `Nat` here.
-/

namespace Axiomc.Runtime

open Foundation Std

/-! ### Identifiers -/

inductive IdKind where
  | owner
  | borrow
  | resource
  deriving DecidableEq

/-- The newtypes `OwnerId`, `BorrowId` and `ResourceId` of the source, told apart by `kind`. -/
structure Id (kind : IdKind) where
  raw : Nat
  deriving DecidableEq, Repr

abbrev OwnerId := Id .owner
abbrev BorrowId := Id .borrow
abbrev ResourceId := Id .resource

instance {kind : IdKind} : Ord (Id kind) := ⟨compareOn Id.raw⟩

instance {kind : IdKind} : TransOrd (Id kind) :=
  inferInstanceAs (TransCmp (compareOn Id.raw))

instance {kind : IdKind} : LawfulEqOrd (Id kind) where
  eq_of_compare {a b} h := by
    have hcompare : compare a.raw b.raw = .eq := h
    have hraw : a.raw = b.raw := LawfulEqCmp.eq_of_compare hcompare
    cases a
    cases b
    exact congrArg Id.mk hraw

/-! ### Data -/

inductive ExitReason where
  | normalReturn
  | earlyReturn
  | errorReturn
  | panicUnwind
  | cancellation
  deriving DecidableEq, Repr

/-- The derived `Debug` text. -/
def ExitReason.debug : ExitReason → String
  | .normalReturn => "NormalReturn"
  | .earlyReturn => "EarlyReturn"
  | .errorReturn => "ErrorReturn"
  | .panicUnwind => "PanicUnwind"
  | .cancellation => "Cancellation"

inductive OwnerStatus where
  | active
  | moved
  | dropped
  deriving DecidableEq, Repr

inductive ResourceStatus where
  | active
  | moved
  | closed
  deriving DecidableEq, Repr

inductive BorrowMode where
  | shared
  | mutable
  deriving DecidableEq, Repr

inductive LifecycleError where
  | noActiveScope
  | scopeUnderflow
  | allocationFailure (requested limit : Nat)
  | unknownOwner (owner : OwnerId)
  | useAfterMove (owner : OwnerId)
  | useAfterDrop (owner : OwnerId)
  | doubleFree (owner : OwnerId)
  | borrowConflict (owner : OwnerId)
  | borrowStillActive (owner : OwnerId)
  | unknownBorrow (borrow : BorrowId)
  | ownershipEscape (owner : OwnerId)
  | ownershipCycle (owner : OwnerId)
  | notCopyable (owner : OwnerId)
  | unknownResource (resource : ResourceId)
  | resourceUseAfterClose (resource : ResourceId)
  | resourceEscape (resource : ResourceId)
  | doubleClose (resource : ResourceId)
  deriving DecidableEq, Repr

structure LifecycleOperation where
  operation : String
  allocationEffect : Option String := none
  ownershipTransfer : Option String := none
  borrowExtent : Option String := none
  cleanupObligations : Nat
  resourceAuthority : Option String := none
  sourceProvenance : Option String := none
  deriving DecidableEq, Repr

structure AllocationInspection where
  owner : OwnerId
  layout : Nat
  active : Bool
  copyable : Bool
  children : List OwnerId
  outstandingCleanupObligation : Bool

structure ResourceInspection where
  resource : ResourceId
  capability : String
  active : Bool
  outstandingCleanupObligation : Bool

structure LifecycleInspection where
  allocations : List AllocationInspection
  resources : List ResourceInspection
  operations : List LifecycleOperation

structure Allocation where
  bytes : List UInt8
  copyable : Bool

structure Owner where
  allocation : Nat
  status : OwnerStatus
  parent : Option OwnerId
  children : List OwnerId
  borrows : TreeSet BorrowId
  sourceProvenance : Option String

structure Borrow where
  owner : OwnerId
  mode : BorrowMode

structure Resource where
  status : ResourceStatus
  capability : String
  sourceProvenance : Option String

inductive ScopeEntry where
  | owner (owner : OwnerId)
  | resource (resource : ResourceId)
  deriving DecidableEq, Repr

structure Scope where
  entries : List ScopeEntry := []
  deferred : List String := []

structure LifecycleRuntime where
  nextId : Nat
  allocationLimit : Nat
  allocations : TreeMap Nat Allocation
  owners : TreeMap OwnerId Owner
  borrows : TreeMap BorrowId Borrow
  resources : TreeMap ResourceId Resource
  /-- The open scopes, the innermost one first. -/
  scopes : List Scope
  operations : List LifecycleOperation

/-- A runtime with no scope open. -/
def LifecycleRuntime.new (allocationLimit : Nat) : LifecycleRuntime where
  nextId := 1
  allocationLimit := allocationLimit
  allocations := ∅
  owners := ∅
  borrows := ∅
  resources := ∅
  scopes := []
  operations := []

inductive Stop where
  | error (error : LifecycleError)
  | panic (message : String)
  | exhausted
  deriving DecidableEq, Repr

abbrev Lifecycle (α : Type) := Fallible Stop LifecycleRuntime α

/-! ### Access to the tables -/

/-- Return the error. -/
def fail {α : Type} (error : LifecycleError) : Lifecycle α := throw (.error error)

/-- The value of an option, or a panic with the text given to `expect`. -/
def expect {α : Type} (value : Option α) (message : String) : Lifecycle α :=
  match value with
  | some a => pure a
  | none => throw (.panic message)

def freshId : Lifecycle Nat := do
  let id := (← get).nextId
  modify fun σ => { σ with nextId := σ.nextId + 1 }
  pure id

def record (operation : LifecycleOperation) : Lifecycle Unit :=
  modify fun σ => { σ with operations := σ.operations ++ [operation] }

def owner (o : OwnerId) : Lifecycle Owner := do
  match (← get).owners[o]? with
  | some r => pure r
  | none => fail (.unknownOwner o)

/-- Assign to fields of `self.owner_mut(o)?`. -/
def updateOwner (o : OwnerId) (f : Owner → Owner) : Lifecycle Unit := do
  let _ ← owner o
  modify fun σ => { σ with owners := σ.owners.modify o f }

def resource (id : ResourceId) : Lifecycle Resource := do
  match (← get).resources[id]? with
  | some r => pure r
  | none => fail (.unknownResource id)

/-- Assign to fields of `self.resource_mut(id)?`. -/
def updateResource (id : ResourceId) (f : Resource → Resource) : Lifecycle Unit := do
  let _ ← resource id
  modify fun σ => { σ with resources := σ.resources.modify id f }

/-- The storage behind an owner. -/
def storage (allocation : Nat) (message : String) : Lifecycle Allocation := do
  expect (← get).allocations[allocation]? message

/-- Assign the bytes of an allocation. -/
def setBytes (allocation : Nat) (bytes : List UInt8) : Lifecycle Unit :=
  modify fun σ =>
    { σ with allocations := σ.allocations.modify allocation fun a => { a with bytes := bytes } }

def LifecycleRuntime.outstandingCleanupObligations (σ : LifecycleRuntime) : Nat :=
  (σ.owners.values.filter fun o => o.status == .active).length +
    (σ.resources.values.filter fun r => r.status == .active).length

/-! ### Checks -/

def ensureCapacity (requested : Nat) : Lifecycle Unit := do
  let limit := (← get).allocationLimit
  if requested > limit then
    fail (.allocationFailure requested limit)

def requireScope : Lifecycle Unit := do
  if (← get).scopes.isEmpty then
    fail .noActiveScope

def requireActiveOwner (o : OwnerId) : Lifecycle Unit := do
  match (← owner o).status with
  | .active => pure ()
  | .moved => fail (.useAfterMove o)
  | .dropped => fail (.useAfterDrop o)

def requireNoBorrows (o : OwnerId) : Lifecycle Unit := do
  if !(← owner o).borrows.isEmpty then
    fail (.borrowStillActive o)

def requireActiveResource (id : ResourceId) : Lifecycle Unit := do
  match (← resource id).status with
  | .active => pure ()
  | .moved | .closed => fail (.resourceUseAfterClose id)

/-! ### Scopes -/

/-- Push an entry onto the innermost scope. -/
def scopeEntry (entry : ScopeEntry) : Lifecycle Unit := do
  match (← get).scopes with
  | [] => fail .noActiveScope
  | scope :: outer =>
    modify fun σ =>
      { σ with scopes := { scope with entries := scope.entries ++ [entry] } :: outer }

def removeFromScopes (o : OwnerId) : Lifecycle Unit :=
  modify fun σ =>
    { σ with
      scopes := σ.scopes.map fun scope =>
        { scope with entries := scope.entries.filter fun entry => entry != .owner o } }

/-- Rename an entry in every scope. -/
def renameEntry (source moved : ScopeEntry) : Lifecycle Unit :=
  modify fun σ =>
    { σ with
      scopes := σ.scopes.map fun scope =>
        { scope with
          entries := scope.entries.map fun entry => if entry = source then moved else entry } }

def enterScope : Lifecycle Unit :=
  modify fun σ => { σ with scopes := {} :: σ.scopes }

def defer (action : String) : Lifecycle Unit := do
  match (← get).scopes with
  | [] => fail .noActiveScope
  | scope :: outer =>
    modify fun σ =>
      { σ with scopes := { scope with deferred := scope.deferred ++ [action] } :: outer }

/-! ### Values -/

def allocateWithSource (layout : Nat) (copyable : Bool) (sourceProvenance : Option String) :
    Lifecycle OwnerId := do
  requireScope
  ensureCapacity layout
  let allocation ← freshId
  let id : OwnerId := ⟨← freshId⟩
  modify fun σ =>
    { σ with
      allocations := σ.allocations.insert allocation
        { bytes := List.replicate layout 0, copyable := copyable } }
  modify fun σ =>
    { σ with
      owners := σ.owners.insert id
        { allocation := allocation
          status := .active
          parent := none
          children := []
          borrows := ∅
          sourceProvenance := sourceProvenance } }
  scopeEntry (.owner id)
  record
    { operation := "allocate"
      allocationEffect := some ("allocate:" ++ toString layout)
      ownershipTransfer := some ("creates:" ++ toString id.raw)
      cleanupObligations := 1
      sourceProvenance := sourceProvenance }
  pure id

def allocate (layout : Nat) (copyable : Bool) : Lifecycle OwnerId :=
  allocateWithSource layout copyable none

def activeOwnerHasStorage : String := "active owner must have an allocation"

/-- `Vec::resize` with zeros. -/
def resized (bytes : List UInt8) (layout : Nat) : List UInt8 :=
  bytes.take layout ++ List.replicate (layout - bytes.length) 0

def resize (o : OwnerId) (layout : Nat) : Lifecycle Unit := do
  requireActiveOwner o
  requireNoBorrows o
  ensureCapacity layout
  let allocation := (← owner o).allocation
  let stored ← storage allocation activeOwnerHasStorage
  setBytes allocation (resized stored.bytes layout)
  record
    { operation := "resize"
      allocationEffect := some ("resize:" ++ toString layout)
      ownershipTransfer := some ("preserves:" ++ toString o.raw)
      cleanupObligations := 1
      sourceProvenance := (← owner o).sourceProvenance }

/-- `usize::saturating_add`. -/
def saturatingAdd (a b : Nat) : Nat := min (a + b) (2 ^ 64 - 1)

def write (o : OwnerId) (offset : Nat) (bytes : List UInt8) : Lifecycle Unit := do
  requireActiveOwner o
  requireNoBorrows o
  let allocation := (← owner o).allocation
  let stored := (← storage allocation activeOwnerHasStorage).bytes
  let stop := saturatingAdd offset bytes.length
  if stop > stored.length then
    fail (.allocationFailure stop stored.length)
  setBytes allocation (stored.take offset ++ bytes ++ stored.drop stop)

def read (o : OwnerId) (offset length : Nat) : Lifecycle (List UInt8) := do
  requireActiveOwner o
  let allocation := (← owner o).allocation
  let stored := (← storage allocation activeOwnerHasStorage).bytes
  let stop := saturatingAdd offset length
  if stop > stored.length then
    fail (.allocationFailure stop stored.length)
  pure ((stored.drop offset).take (stop - offset))

def copyValue (o : OwnerId) : Lifecycle (List UInt8) := do
  requireActiveOwner o
  let allocation := (← owner o).allocation
  let value ← storage allocation activeOwnerHasStorage
  if !value.copyable then
    fail (.notCopyable o)
  record
    { operation := "copy"
      allocationEffect := some "copy"
      ownershipTransfer := some ("preserves:" ++ toString o.raw)
      cleanupObligations := (← get).outstandingCleanupObligations
      sourceProvenance := (← owner o).sourceProvenance }
  pure value.bytes

def cloneValue (o : OwnerId) : Lifecycle OwnerId := do
  requireActiveOwner o
  requireNoBorrows o
  let sourceAllocation := (← owner o).allocation
  let source ← storage sourceAllocation activeOwnerHasStorage
  let cloned ← allocateWithSource source.bytes.length source.copyable (← owner o).sourceProvenance
  let clonedAllocation := (← owner cloned).allocation
  let target ← storage clonedAllocation "new owner must have an allocation"
  if target.bytes.length ≠ source.bytes.length then
    throw (.panic "copy_from_slice: source slice length does not match destination slice length")
  setBytes clonedAllocation source.bytes
  record
    { operation := "clone"
      allocationEffect := some "clone"
      ownershipTransfer := some ("distinct:" ++ toString cloned.raw)
      cleanupObligations := 2
      sourceProvenance := (← owner o).sourceProvenance }
  pure cloned

/-- Replace a child of a parent by its new token. -/
def relink (source moved : OwnerId) : Option OwnerId → Lifecycle Unit
  | some parent =>
    updateOwner parent fun r =>
      { r with children := r.children.filter (· != source) ++ [moved] }
  | none => pure ()

def moveValue (source : OwnerId) : Lifecycle OwnerId := do
  requireActiveOwner source
  requireNoBorrows source
  let previous ← owner source
  let moved : OwnerId := ⟨← freshId⟩
  modify fun σ =>
    { σ with
      owners := σ.owners.insert moved { previous with status := .active, borrows := ∅ } }
  relink source moved previous.parent
  forEach (fun child => updateOwner child fun r => { r with parent := some moved })
    previous.children
  renameEntry (.owner source) (.owner moved)
  updateOwner source fun r => { r with status := .moved }
  record
    { operation := "move"
      ownershipTransfer := some (toString source.raw ++ "->" ++ toString moved.raw)
      cleanupObligations := 1
      sourceProvenance := previous.sourceProvenance }
  pure moved

/-- Whether `candidate` is `node` or one of its ancestors: the loop of `has_ancestor` for at most
`rounds` rounds. -/
def hasAncestorFrom (candidate : OwnerId) : Nat → Option OwnerId → Lifecycle Bool
  | _, none => pure false
  | 0, some _ => throw .exhausted
  | rounds + 1, some id => do
    if id = candidate then
      pure true
    else
      hasAncestorFrom candidate rounds ((← get).owners[id]?.bind (·.parent))

def hasAncestor (node candidate : OwnerId) : Lifecycle Bool := do
  hasAncestorFrom candidate ((← get).owners.size + 1) (some node)

def attachChild (parent child : OwnerId) : Lifecycle Unit := do
  requireActiveOwner parent
  requireActiveOwner child
  requireNoBorrows parent
  requireNoBorrows child
  if (← owner child).parent.isSome ∨ parent = child then
    fail (.ownershipEscape child)
  if ← hasAncestor parent child then
    fail (.ownershipCycle child)
  removeFromScopes child
  updateOwner child fun r => { r with parent := some parent }
  updateOwner parent fun r => { r with children := r.children ++ [child] }
  record
    { operation := "attach"
      ownershipTransfer :=
        some ("child:" ++ toString child.raw ++ "->parent:" ++ toString parent.raw)
      cleanupObligations := 2
      sourceProvenance := (← owner parent).sourceProvenance }

/-! ### Borrows -/

def borrow (o : OwnerId) (mode : BorrowMode) : Lifecycle BorrowId := do
  requireActiveOwner o
  let borrows := (← get).borrows
  let existing := (← owner o).borrows.toList.filterMap fun id => borrows[id]?
  if mode = .mutable ∨ existing.any (·.mode = .mutable) then
    if !existing.isEmpty then
      fail (.borrowConflict o)
  let id : BorrowId := ⟨← freshId⟩
  modify fun σ => { σ with borrows := σ.borrows.insert id ⟨o, mode⟩ }
  updateOwner o fun r => { r with borrows := r.borrows.insert id }
  record
    { operation := "borrow"
      ownershipTransfer := some ("borrows:" ++ toString o.raw)
      borrowExtent := some ("begin:" ++ toString id.raw)
      cleanupObligations := 1
      sourceProvenance := (← owner o).sourceProvenance }
  pure id

def endBorrow (id : BorrowId) : Lifecycle Unit := do
  match (← get).borrows[id]? with
  | none => fail (.unknownBorrow id)
  | some taken =>
    modify fun σ => { σ with borrows := σ.borrows.erase id }
    updateOwner taken.owner fun r => { r with borrows := r.borrows.erase id }
    record
      { operation := "borrow-end"
        borrowExtent := some ("end:" ++ toString id.raw)
        cleanupObligations := 1
        sourceProvenance := (← owner taken.owner).sourceProvenance }

/-! ### Resources -/

def openResource (capability : String) (sourceProvenance : Option String) :
    Lifecycle ResourceId := do
  requireScope
  let id : ResourceId := ⟨← freshId⟩
  modify fun σ =>
    { σ with
      resources := σ.resources.insert id
        { status := .active, capability := capability, sourceProvenance := sourceProvenance } }
  scopeEntry (.resource id)
  record
    { operation := "resource-open"
      ownershipTransfer := some ("creates:" ++ toString id.raw)
      cleanupObligations := 1
      resourceAuthority := (← get).resources[id]?.map (·.capability)
      sourceProvenance := sourceProvenance }
  pure id

def moveResource (source : ResourceId) : Lifecycle ResourceId := do
  requireActiveResource source
  let previous ← resource source
  let moved : ResourceId := ⟨← freshId⟩
  modify fun σ =>
    { σ with resources := σ.resources.insert moved { previous with status := .active } }
  renameEntry (.resource source) (.resource moved)
  updateResource source fun r => { r with status := .moved }
  record
    { operation := "resource-move"
      ownershipTransfer := some (toString source.raw ++ "->" ++ toString moved.raw)
      cleanupObligations := 1
      resourceAuthority := some previous.capability
      sourceProvenance := previous.sourceProvenance }
  pure moved

def useResource (id : ResourceId) : Lifecycle Unit := do
  requireActiveResource id
  let value ← resource id
  record
    { operation := "resource_use"
      ownershipTransfer := some ("preserves:" ++ toString id.raw)
      cleanupObligations := (← get).outstandingCleanupObligations
      resourceAuthority := some value.capability
      sourceProvenance := value.sourceProvenance }

def closeResource (id : ResourceId) : Lifecycle Unit := do
  match (← resource id).status with
  | .active =>
    let value ← resource id
    updateResource id fun r => { r with status := .closed }
    record
      { operation := "resource-close"
        ownershipTransfer := some ("discharges:" ++ toString id.raw)
        cleanupObligations := 0
        resourceAuthority := some value.capability
        sourceProvenance := value.sourceProvenance }
  | .closed => fail (.doubleClose id)
  | .moved => fail (.resourceUseAfterClose id)

def dropResource (id : ResourceId) : Lifecycle Unit := do
  match (← resource id).status with
  | .active => closeResource id
  | .closed => pure ()
  | .moved => fail (.resourceUseAfterClose id)

/-! ### Cleanup -/

/-- The first hit among the elements of a list. -/
def firstHit (visit : OwnerId → Lifecycle (Option OwnerId)) :
    List OwnerId → Lifecycle (Option OwnerId)
  | [] => pure none
  | child :: children => do
    match ← visit child with
    | some hit => pure (some hit)
    | none => firstHit visit children

/-- The first owner with an open borrow in the aggregate below `o`, children in order. -/
def firstBorrowedWithin : Nat → OwnerId → Lifecycle (Option OwnerId)
  | 0, _ => throw .exhausted
  | rounds + 1, o => do
    match (← get).owners[o]? with
    | none => pure none
    | some r =>
      if !r.borrows.isEmpty then
        pure (some o)
      else
        firstHit (firstBorrowedWithin rounds) r.children

def firstBorrowedInSubtree (o : OwnerId) : Lifecycle (Option OwnerId) := do
  firstBorrowedWithin ((← get).owners.size + 1) o

/-- Run a step of a cleanup loop and keep its error; a panic is not caught. -/
def attempt (step : Lifecycle Unit) : Lifecycle (Option LifecycleError) := fun σ =>
  match exec step σ with
  | (.ok (), σ') => (.ok none, σ')
  | (.error (.error e), σ') => (.ok (some e), σ')
  | (.error stop, σ') => (.error stop, σ')

/-- Run every step of a cleanup loop and return the first error (`get_or_insert`). -/
def attemptAll {α : Type} (step : α → Lifecycle Unit) : List α → Lifecycle (Option LifecycleError)
  | [] => pure none
  | a :: rest => do
    let error ← attempt (step a)
    let later ← attemptAll step rest
    pure (error.or later)

/-- `first_error.map_or(Ok(()), Err)`. -/
def finish (firstError : Option LifecycleError) : Lifecycle Unit :=
  match firstError with
  | none => pure ()
  | some e => fail e

def requireDroppable (o : OwnerId) : Lifecycle Unit := do
  match (← owner o).status with
  | .active => pure ()
  | .moved => fail (.useAfterMove o)
  | .dropped => fail (.doubleFree o)

/-- Fail when an owner of the aggregate is borrowed. -/
def rejectBorrowedSubtree (o : OwnerId) : Lifecycle Unit := do
  match ← firstBorrowedInSubtree o with
  | some borrowed => fail (.borrowStillActive borrowed)
  | none => pure ()

/-- Take an owner off its parent's list. -/
def unlink (o : OwnerId) : Option OwnerId → Lifecycle Unit
  | some parent => updateOwner parent fun r => { r with children := r.children.filter (· != o) }
  | none => pure ()

/-- Mark an owner as dropped and cut the links around it. -/
def detach (o : OwnerId) (held : Owner) : Lifecycle Unit := do
  unlink o held.parent
  updateOwner o fun r => { r with status := .dropped }
  updateOwner o fun r => { r with parent := none }
  forEach (fun child => updateOwner child fun r => { r with parent := none }) held.children

def dropOwnerWithin : Nat → OwnerId → Lifecycle Unit
  | 0, _ => throw .exhausted
  | rounds + 1, o => do
    requireDroppable o
    rejectBorrowedSubtree o
    let held ← owner o
    detach o held
    let firstError ← attemptAll (dropOwnerWithin rounds) held.children.reverse
    modify fun σ => { σ with allocations := σ.allocations.erase held.allocation }
    removeFromScopes o
    record
      { operation := if !held.children.isEmpty then "recursive_destroy" else "drop"
        allocationEffect := some "release"
        ownershipTransfer := some ("discharges:" ++ toString o.raw)
        cleanupObligations := (← get).outstandingCleanupObligations
        sourceProvenance := (← owner o).sourceProvenance }
    finish firstError

def dropOwner (o : OwnerId) : Lifecycle Unit := do
  dropOwnerWithin ((← get).owners.size + 1) o

def dropValue (o : OwnerId) : Lifecycle Unit := dropOwner o

/-- Discharge one entry of a scope that is being left. -/
def dropEntry : ScopeEntry → Lifecycle Unit
  | .owner o => dropOwner o
  | .resource id => dropResource id

/-- Fail when an owner of the scope, or of an aggregate below one, is borrowed. -/
def rejectBorrowed : List ScopeEntry → Lifecycle Unit
  | [] => pure ()
  | .resource _ :: entries => rejectBorrowed entries
  | .owner o :: entries => do
    rejectBorrowedSubtree o
    rejectBorrowed entries

/-- The checks of `exit_scope` before it pops anything. -/
def rejectBorrowedScope : Option Scope → Lifecycle Unit
  | none => fail .scopeUnderflow
  | some scope => rejectBorrowed scope.entries

def exitScope (reason : ExitReason) : Lifecycle Unit := do
  rejectBorrowedScope (← get).scopes.head?
  let scope ← expect (← get).scopes.head? "validated scope must still be present"
  modify fun σ => { σ with scopes := σ.scopes.tail }
  forEach
    (fun action =>
      record { operation := "defer", cleanupObligations := 0, resourceAuthority := some action })
    scope.deferred.reverse
  let firstError ← attemptAll dropEntry scope.entries.reverse
  record
    { operation := "scope-exit"
      ownershipTransfer := some reason.debug
      cleanupObligations := (← get).outstandingCleanupObligations }
  finish firstError

/-! ### Inspection -/

def LifecycleRuntime.inspect (σ : LifecycleRuntime) : LifecycleInspection where
  allocations := sortBy (fun a b => compare a.owner b.owner) <|
    σ.owners.toList.map fun (id, o) =>
      { owner := id
        layout := (σ.allocations[o.allocation]?.map (·.bytes.length)).getD 0
        active := o.status == .active
        copyable := (σ.allocations[o.allocation]?.map (·.copyable)).getD false
        children := o.children
        outstandingCleanupObligation := o.status == .active }
  resources := sortBy (fun a b => compare a.resource b.resource) <|
    σ.resources.toList.map fun (id, r) =>
      { resource := id
        capability := r.capability
        active := r.status == .active
        outstandingCleanupObligation := r.status == .active }
  operations := σ.operations

/-! ### Runs -/

/-- The public methods of `LifecycleRuntime`. -/
inductive Call where
  | enterScope
  | defer (action : String)
  | allocate (layout : Nat) (copyable : Bool)
  | allocateWithSource (layout : Nat) (copyable : Bool) (sourceProvenance : Option String)
  | resize (owner : OwnerId) (layout : Nat)
  | write (owner : OwnerId) (offset : Nat) (bytes : List UInt8)
  | read (owner : OwnerId) (offset length : Nat)
  | copyValue (owner : OwnerId)
  | cloneValue (owner : OwnerId)
  | moveValue (owner : OwnerId)
  | attachChild (parent child : OwnerId)
  | borrow (owner : OwnerId) (mode : BorrowMode)
  | endBorrow (borrow : BorrowId)
  | dropValue (owner : OwnerId)
  | openResource (capability : String) (sourceProvenance : Option String)
  | moveResource (resource : ResourceId)
  | useResource (resource : ResourceId)
  | closeResource (resource : ResourceId)
  | dropResource (resource : ResourceId)
  | exitScope (reason : ExitReason)
  | outstandingCleanupObligations
  | inspect

/-- What the methods return. -/
inductive Response where
  | done
  | owner (id : OwnerId)
  | borrow (id : BorrowId)
  | resource (id : ResourceId)
  | bytes (bytes : List UInt8)
  | obligations (count : Nat)
  | inspection (inspection : LifecycleInspection)

def step : Call → Lifecycle Response
  | .enterScope => (fun _ => .done) <$> enterScope
  | .defer action => (fun _ => .done) <$> defer action
  | .allocate layout copyable => .owner <$> allocate layout copyable
  | .allocateWithSource layout copyable source =>
    .owner <$> allocateWithSource layout copyable source
  | .resize o layout => (fun _ => .done) <$> resize o layout
  | .write o offset bytes => (fun _ => .done) <$> write o offset bytes
  | .read o offset length => .bytes <$> read o offset length
  | .copyValue o => .bytes <$> copyValue o
  | .cloneValue o => .owner <$> cloneValue o
  | .moveValue o => .owner <$> moveValue o
  | .attachChild parent child => (fun _ => .done) <$> attachChild parent child
  | .borrow o mode => .borrow <$> borrow o mode
  | .endBorrow id => (fun _ => .done) <$> endBorrow id
  | .dropValue o => (fun _ => .done) <$> dropValue o
  | .openResource capability source => .resource <$> openResource capability source
  | .moveResource id => .resource <$> moveResource id
  | .useResource id => (fun _ => .done) <$> useResource id
  | .closeResource id => (fun _ => .done) <$> closeResource id
  | .dropResource id => (fun _ => .done) <$> dropResource id
  | .exitScope reason => (fun _ => .done) <$> exitScope reason
  | .outstandingCleanupObligations => do
    pure (.obligations (← get).outstandingCleanupObligations)
  | .inspect => do
    pure (.inspection (← get).inspect)

/-- A sequence of calls: what each of them returned, and the state after the last one. -/
def run : List Call → LifecycleRuntime → List (Except Stop Response) × LifecycleRuntime
  | [], σ => ([], σ)
  | call :: calls, σ =>
    let (result, σ') := exec (step call) σ
    let (results, final) := run calls σ'
    (result :: results, final)

end Axiomc.Runtime
