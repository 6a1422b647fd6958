import Axiomc.Workspace.TransactionSteps

/-!
# Transactions: what a commit says

The invariant of a transaction over calls, crashes and recoveries.

* `Journalled`: the worktree that the journal describes, from the base on;
* `Held`: what holds of a state, on the disk or in a handle: while nothing is pending the worktree is the
  one of the journal;
* `Refreshed`: what taking fingerprints changes;
* `wp_persist`, `wp_record`: writing the state keeps any invariant with the closure properties of `Rules`;
* `wp_abort`, `wp_runEffect` and the others: what each call keeps of it, however it ends;
* `plainHost`: a machine for samples.
-/

namespace Axiomc.Workspace

open Foundation Effect List

/-- The paths of a policy lead to names that are not reserved. -/
def Unreserved (policy : WorkspacePolicy) : Prop :=
  ∀ path ∈ policyPaths policy, Begins Free (pathNames path)

/-- `git` does not touch the state file. -/
structure Host.Spares (host : Host) : Prop where
  reset : ∀ sha w w', Left w (host.reset sha w) w' → w'.node [stateFile] = w.node [stateFile]
  clean : ∀ w w', Left w (host.clean w) w' → w'.node [stateFile] = w.node [stateFile]

variable {host : Host} {base : Worktree} {path : Text} {state : TransactionState} {result : Text}
  {tree tree' : Worktree} {a b : TransactionState} {e : Effect}

/-! ### The journal -/

def Operation.isEffect : Operation → Bool
  | .write | .delete | .rename | .chmod => true
  | _ => false

/-- The line of the journal for an effect on a worktree. -/
structure Line (host : Host) (e : Effect) (tree : Worktree) (event : AuditEvent) : Prop where
  operation : event.operation = e.operation
  subject : event.subject = redact e.subject
  result : ∃ before, secureFileContent tree e.digested = .ok before ∧
    event.result = redact (e.digests host (before.map host.digest))

/-- The worktree after the effects of a journal, one after the other from `base` on. -/
inductive Journalled (host : Host) (base : Worktree) : List AuditEvent → Worktree → Prop
  | base : Journalled host base [] base
  | other {events : List AuditEvent} {event : AuditEvent} {tree : Worktree} :
      Journalled host base events tree → event.operation.isEffect = false →
      Journalled host base (events ++ [event]) tree
  | effect {events : List AuditEvent} {event : AuditEvent} {tree tree' : Worktree} {e : Effect} :
      Journalled host base events tree → Line host e tree event → e.apply tree = .ok tree' →
      Journalled host base (events ++ [event]) tree'

/-! ### Writing the state -/

/-- The states differ in their owner, generation and checksum at most. -/
def Restamps (a b : TransactionState) : Prop :=
  ∃ owner generation checksum,
    b = { a with ownerEpoch := owner, generation := generation, checksum := checksum }

theorem Restamps.refl (a : TransactionState) : Restamps a a := ⟨_, _, _, rfl⟩

theorem Restamps.phase (h : Restamps a b) : b.phase = a.phase := by
  obtain ⟨_, _, _, rfl⟩ := h
  rfl

/-- Some state is on the disk, and `H` holds of it. -/
def Disk (H : Worktree → TransactionState → Prop) (tree : Worktree) : Prop :=
  ∃ durable, Durable tree durable ∧ H tree durable

/-- `H` holds of the state on the disk and of the handle's, which is committed if the other one is. -/
def Coherent (H : Worktree → TransactionState → Prop) (s : Session) : Prop :=
  ∃ durable, Durable s.tree durable ∧ H s.tree durable ∧ H s.tree s.state ∧
    (durable.phase = .committed → s.state.phase = .committed)

/-- The closure properties that writing the state needs. -/
structure Rules (H : Worktree → TransactionState → Prop) : Prop where
  restamps : ∀ {tree a b}, H tree a → Restamps a b → H tree b
  same : ∀ {tree tree' a}, Same tree tree' → H tree a → H tree' a

section Writing

variable {H : Worktree → TransactionState → Prop} {s : Session} {Q : PUnit → Session → Prop}
  {E : Stop → Session → Prop} {β : Type} {g : PUnit → Io β} {R : β → Session → Prop}

theorem Coherent.disk (h : Coherent H s) : Disk H s.tree := by
  obtain ⟨durable, hdurable, hkept, -⟩ := h
  exact ⟨durable, hdurable, hkept⟩

theorem Coherent.held (h : Coherent H s) : H s.tree s.state := h.choose_spec.2.2.1

/-- A change of the handle's state. -/
theorem Coherent.set_state (h : Coherent H s) (hheld : H s.tree state)
    (hphase : s.state.phase = .committed → state.phase = .committed) :
    Coherent H { s with state := state } := by
  obtain ⟨durable, hdurable, hkept, -, hcommitted⟩ := h
  exact ⟨durable, hdurable, hkept, hheld, fun hd => hphase (hcommitted hd)⟩

variable {expected : Option (Text × Nat)}

theorem wp_requireExpected (hok : ∀ faults, wp (g ⟨⟩) R E { s with faults := faults })
    (hstop : MayStop E s) : wp (requireExpected host state expected >>= g) R E s := by
  cases expected with
  | none =>
    simp only [requireExpected, bind_assoc]
    exact wp_stateFileExists (wp_stopIf (fun _ => hok s.faults) fun _ => hstop _ s.faults)
  | some owner =>
    simp only [requireExpected, requireOwner, bind_assoc]
    refine wp_observe (fun durable faults _ => ?_) hstop
    refine wp_stopIf (fun _ => ?_) fun _ => hstop _ faults
    exact wp_stopIf (fun _ => hok faults) fun _ => hstop _ faults

/-- However the write of a state ends, the disk has the old state or the new one. -/
theorem wp_persistState {Q : TransactionState → Session → Prop}
    (hok : ∀ next s', Restamps state next → s'.state = s.state → s'.head = s.head →
      Rewritten s.tree s'.tree next → Durable s'.tree next → Q next s')
    (hstop : ∀ stop next s', Restamps state next → s'.state = s.state →
      Rewritten s.tree s'.tree next → E stop s') : wp (persistState host state expected) Q E s := by
  have hearly : MayStop E s := fun stop faults =>
    hstop stop state _ (Restamps.refl state) rfl (Rewritten.refl _ _)
  refine wp_requireExpected (fun faults => ?_) hearly
  refine wp_stopIf (fun _ => ?_) fun _ => hearly _ faults
  rw [wp_bind]
  refine wp_writeState (fun s' hstate hhead hrewritten hdurable => ?_) ?_
  · exact hok _ s' ⟨_, _, _, rfl⟩ hstate hhead hrewritten hdurable
  · exact fun stop s' hstate _ hrewritten => hstop stop _ s' ⟨_, _, _, rfl⟩ hstate hrewritten

/-- What a write of the state leaves on the disk. -/
theorem Coherent.rewritten (rules : Rules H) (h : Coherent H s) {tree : Worktree}
    {next : TransactionState} (hnext : Restamps s.state next) (hrewritten : Rewritten s.tree tree next) :
    ∃ durable, Durable tree durable ∧ H tree durable ∧
      (durable.phase = .committed → s.state.phase = .committed) := by
  obtain ⟨durable, hdurable, hkept, hheld, hphase⟩ := h
  rcases hrewritten.state with hold | hnew
  · exact ⟨durable, hdurable.of_node hold, rules.same hrewritten.same hkept, hphase⟩
  · refine ⟨next, hnew, rules.same hrewritten.same (rules.restamps hheld hnext), ?_⟩
    obtain ⟨_, _, _, rfl⟩ := hnext
    exact id

/-- Writing the state keeps an invariant. -/
theorem wp_persist (rules : Rules H) (h : Coherent H s)
    (hok : ∀ s', Coherent H s' → Same s.tree s'.tree → Restamps s.state s'.state →
      Durable s'.tree s'.state → Q ⟨⟩ s')
    (herror : ∀ message s', Coherent H s' → Same s.tree s'.tree → E (.error message) s')
    (hcrash : ∀ s', Disk H s'.tree → Same s.tree s'.tree → E .crash s') : wp (persist host) Q E s := by
  refine wp_getState ?_
  refine wp_stateFileExists ?_
  rw [wp_bind]
  refine wp_persistState (fun next s' hnext hstate _ hrewritten hdurable => ?_) ?_
  · have hheld : H s'.tree next := rules.same hrewritten.same (rules.restamps h.held hnext)
    exact hok { s' with state := next } ⟨next, hdurable, hheld, hheld, id⟩ hrewritten.same hnext hdurable
  · intro stop next s' hnext hstate hrewritten
    obtain ⟨durable, hdurable, hkept, hphase⟩ := h.rewritten rules hnext hrewritten
    cases stop with
    | crash => exact hcrash s' ⟨durable, hdurable, hkept⟩ hrewritten.same
    | error message =>
      refine herror message s' ⟨durable, hdurable, hkept, ?_, ?_⟩ hrewritten.same
      · rw [hstate]
        exact rules.same hrewritten.same h.held
      · rw [hstate]
        exact hphase

/-- The state with an event more. -/
def withEvent (state : TransactionState) (operation : Operation) (subject result : Text) :
    TransactionState :=
  { state with events := state.events ++
      [⟨state.events.length, operation, redact subject, redact result⟩] }

theorem wp_record (rules : Rules H) {operation : Operation} {subject result : Text}
    (h : Coherent H { s with state := withEvent s.state operation subject result })
    (hok : ∀ s', Coherent H s' → Same s.tree s'.tree →
      Restamps (withEvent s.state operation subject result) s'.state → Durable s'.tree s'.state → Q ⟨⟩ s')
    (herror : ∀ message s', Coherent H s' → Same s.tree s'.tree → E (.error message) s')
    (hcrash : ∀ s', Disk H s'.tree → Same s.tree s'.tree → E .crash s') :
    wp (record host operation subject result) Q E s := by
  unfold record
  exact wp_modifyState (wp_persist rules h hok herror hcrash)

end Writing

/-! ### Fingerprints -/

/-- The state with other fingerprints. -/
def withFingerprints (state : TransactionState) (rows : List (Text × Text)) (inScope unscoped : Text) :
    TransactionState :=
  { state with
    authorizedPathFingerprints := rows
    workspaceFingerprint := inScope
    unscopedWorkspaceFingerprint := unscoped }

/-- Only fingerprints of the handle's state have changed. -/
structure Refreshed (s s' : Session) : Prop where
  tree : s'.tree = s.tree
  state : ∃ rows inScope unscoped, s'.state = withFingerprints s.state rows inScope unscoped

theorem refreshed_state (s : Session) (rows : List (Text × Text)) (inScope unscoped : Text) :
    Refreshed s { s with state := withFingerprints s.state rows inScope unscoped } :=
  ⟨rfl, rows, inScope, unscoped, rfl⟩

theorem Refreshed.phase {s' : Session} (h : Refreshed s s') : s'.state.phase = s.state.phase := by
  obtain ⟨-, _, _, _, hstate⟩ := h
  rw [hstate]
  rfl

instance : Patient Refreshed where
  refl s := refreshed_state s s.state.authorizedPathFingerprints s.state.workspaceFingerprint
    s.state.unscopedWorkspaceFingerprint
  trans := by
    rintro s s' s'' ⟨htree, _, _, _, hstate⟩ ⟨htree', rows, inScope, unscoped, hstate'⟩
    refine ⟨htree'.trans htree, rows, inScope, unscoped, ?_⟩
    rw [hstate', hstate]
    rfl
  faults s faults := ⟨rfl, s.state.authorizedPathFingerprints, s.state.workspaceFingerprint,
    s.state.unscopedWorkspaceFingerprint, rfl⟩

theorem within_refreshScoped : Within Refreshed (refreshScoped host) :=
  (within_observe _ _).bind fun _ => within_modifyState fun s => refreshed_state s _ _ _

theorem within_refreshUnscoped : Within Refreshed (refreshUnscoped host) :=
  within_getState.bind fun _ => (within_observe _ _).bind fun _ =>
    within_modifyState fun s => refreshed_state s _ _ _

theorem within_updateCache (changed : List Text) :
    Within Refreshed (updateAuthorizedPathFingerprintCache host changed) := by
  refine within_getState.bind fun _ => within_forEach (fun path => ?_) _
  refine within_getState.bind fun _ => within_onlyIf _ ?_
  exact (within_observe _ _).bind fun _ => within_modifyState fun s => refreshed_state s _ _ _

theorem within_refreshFingerprints : Within Refreshed (refreshFingerprints host) := by
  refine within_getState.bind fun _ => (within_observe _ _).bind fun _ => Within.bind ?_ fun _ => ?_
  · exact within_modifyState fun s => refreshed_state s _ _ _
  · exact within_refreshScoped.bind fun _ => within_refreshUnscoped

/-! ### The invariant -/

/-- What holds of the state on the disk and of an open handle's.  A transaction is `clean` until an abort
stops on its way. -/
structure Held (host : Host) (base : Worktree) (policy : WorkspacePolicy) (clean : Bool) (tree : Worktree)
    (state : TransactionState) : Prop where
  policy_eq : state.policy = policy
  barred : clean = false ∨ state.pendingEffect ≠ none → state.phase ≠ .committed
  tracked : clean = true → state.pendingEffect = none → state.phase ≠ .aborted →
    ∃ R, Journalled host base state.events R ∧ Same tree R

variable {policy : WorkspacePolicy} {clean : Bool}

/-- A committed transaction is clean and has nothing pending. -/
theorem Held.committed (h : Held host base policy clean tree a) (hphase : a.phase = .committed) :
    a.pendingEffect = none ∧ ∃ R, Journalled host base a.events R ∧ Same tree R := by
  have hclean : clean = true := by
    cases clean with
    | true => rfl
    | false => exact absurd hphase (h.barred (.inl rfl))
  have hpending : a.pendingEffect = none := by
    by_contra hpending
    exact h.barred (.inr hpending) hphase
  exact ⟨hpending, h.tracked hclean hpending (by simp [hphase])⟩

/-- What is held of a state depends on these fields only. -/
theorem Held.congr (h : Held host base policy clean tree a) (hpolicy : b.policy = a.policy)
    (hphase : b.phase = a.phase) (hpending : b.pendingEffect = a.pendingEffect)
    (hevents : b.events = a.events) : Held host base policy clean tree b := by
  obtain ⟨hp, hbarred, htracked⟩ := h
  rw [← hpolicy] at hp
  rw [← hphase, ← hpending] at hbarred htracked
  rw [← hevents] at htracked
  exact ⟨hp, hbarred, htracked⟩

theorem Held.restamps (h : Held host base policy clean tree a) (hrestamps : Restamps a b) :
    Held host base policy clean tree b := by
  obtain ⟨_, _, _, rfl⟩ := hrestamps
  exact h.congr rfl rfl rfl rfl

theorem Held.same (hsame : Same tree tree') (h : Held host base policy clean tree a) :
    Held host base policy clean tree' a := by
  refine ⟨h.policy_eq, h.barred, ?_⟩
  intro hclean hpending haborted
  obtain ⟨R, hjournal, hR⟩ := h.tracked hclean hpending haborted
  exact ⟨R, hjournal, hsame.symm.trans hR⟩

theorem Held.event (h : Held host base policy clean tree a) {event : AuditEvent}
    (hevent : event.operation.isEffect = false) :
    Held host base policy clean tree { a with events := a.events ++ [event] } := by
  refine ⟨h.policy_eq, h.barred, ?_⟩
  intro hclean hpending haborted
  obtain ⟨R, hjournal, hsame⟩ := h.tracked hclean hpending haborted
  exact ⟨R, .other hjournal hevent, hsame⟩

theorem rules (host : Host) (base : Worktree) (policy : WorkspacePolicy) (clean : Bool) :
    Rules (Held host base policy clean) where
  restamps := Held.restamps
  same := Held.same

/-- A live transaction goes over to another phase. -/
theorem Held.rephase (h : Held host base policy clean tree a) {phase : TransactionPhase}
    (hlive : a.phase = .active ∨ a.phase = .interrupted)
    (hcommitted : phase = .committed → clean = true ∧ a.pendingEffect = none) :
    Held host base policy clean tree { a with phase := phase } := by
  refine ⟨h.policy_eq, ?_, ?_⟩
  · intro hbarred hphase
    obtain ⟨hclean, hpending⟩ := hcommitted hphase
    rcases hbarred with hbarred | hbarred
    · exact absurd (hclean.symm.trans hbarred) (by simp)
    · exact hbarred hpending
  · intro hclean hpending _
    exact h.tracked hclean hpending (by rcases hlive with hlive | hlive <;> simp [hlive])

theorem Held.of_aborted (hpolicy : a.policy = policy) (hphase : a.phase = .aborted) :
    Held host base policy clean tree a :=
  ⟨hpolicy, fun _ => by simp [hphase], fun _ _ haborted => absurd hphase haborted⟩

theorem Held.of_pending (hpolicy : a.policy = policy) (hphase : a.phase ≠ .committed)
    (hpending : a.pendingEffect ≠ none) : Held host base policy clean tree a :=
  ⟨hpolicy, fun _ => hphase, fun _ hnone => absurd hnone hpending⟩

/-- A transaction that is not committed can be held to less, on any worktree. -/
theorem Held.weaken (h : Held host base policy clean tree a) (hphase : a.phase ≠ .committed) :
    Held host base policy false tree' a :=
  ⟨h.policy_eq, fun _ => hphase, by simp⟩

/-! ### The calls -/

/-- The invariant between calls on an open handle. -/
abbrev Inv (host : Host) (base : Worktree) (policy : WorkspacePolicy) (clean : Bool) (s : Session) : Prop :=
  Coherent (Held host base policy clean) s

/-- How a call may stop: with the invariant, or in a crash with the half of it that is about the disk. -/
def Stops (host : Host) (base : Worktree) (policy : WorkspacePolicy) (clean : Bool) :
    Stop → Session → Prop
  | .error _, s => Inv host base policy clean s
  | .crash, s => Disk (Held host base policy clean) s.tree

variable {s s' : Session} {Q : PUnit → Session → Prop} {E : Stop → Session → Prop} {β : Type}
  {g : PUnit → Io β} {R : β → Session → Prop}

theorem Coherent.stops (h : Inv host base policy clean s) (stop : Stop) (faults : List Verdict) :
    Stops host base policy clean stop { s with faults := faults } := by
  cases stop with
  | error message => exact h
  | crash => exact h.disk

theorem Coherent.refreshed (h : Inv host base policy clean s) (hrefreshed : Refreshed s s') :
    Inv host base policy clean s' := by
  obtain ⟨htree, _, _, _, hstate⟩ := hrefreshed
  obtain ⟨durable, hdurable, hkept, hheld, hcommitted⟩ := h
  rw [← htree] at hdurable hkept hheld
  refine ⟨durable, hdurable, hkept, ?_, ?_⟩
  · rw [hstate]
    exact hheld.congr rfl rfl rfl rfl
  · rw [hstate]
    exact hcommitted

theorem wp_requireActive (hok : s.state.phase = .active → wp (g ⟨⟩) R E s)
    (hstop : ∀ message, E (.error message) s) : wp (requireActive >>= g) R E s := by
  rw [requireActive, bind_assoc]
  refine wp_getState (wp_stopIf (fun hphase => ?_) fun _ => hstop _)
  exact hok (not_not.1 hphase)

variable {operation : Operation} {subject : Text}

/-- An event that is not an effect is recorded. -/
theorem wp_recordOther (hoperation : operation.isEffect = false) (h : Inv host base policy clean s)
    (hok : ∀ s', Inv host base policy clean s' → Same s.tree s'.tree →
      Restamps (withEvent s.state operation subject result) s'.state → Q ⟨⟩ s') :
    wp (record host operation subject result) Q (Stops host base policy clean) s :=
  wp_record (rules host base policy clean) (h.set_state (h.held.event hoperation) id)
    (fun s' hs' hsame hstate _ => hok s' hs' hsame hstate) (fun _ _ hs' _ => hs') fun _ hs' _ => hs'

/-- The last event of a call. -/
theorem wp_recordLast (hoperation : operation.isEffect = false) (h : Inv host base policy clean s) :
    wp (record host operation subject result) (fun _ s' => Inv host base policy clean s')
      (Stops host base policy clean) s :=
  wp_recordOther hoperation h fun _ hs' _ _ => hs'

theorem wp_markInterrupted (h : Inv host base policy clean s) :
    wp (markInterrupted host) (fun _ s' => Inv host base policy clean s')
      (Stops host base policy clean) s := by
  refine wp_requireActive (fun hphase => ?_) fun message => h
  refine wp_modifyState (wp_recordLast rfl (h.set_state ?_ ?_))
  · exact h.held.rephase (.inl hphase) (by simp)
  · rw [hphase]
    simp

theorem wp_requireMatch {message : String} (hok : ∀ faults, Q ⟨⟩ { s with faults := faults })
    (hstop : MayStop E s) : wp (requireMatch host message state) Q E s := by
  unfold requireMatch
  refine wp_observe (fun matches_ faults hmatch => ?_) hstop
  rw [← bind_pure (stopIf _ _)]
  exact wp_stopIf (fun _ => hok faults) fun _ => hstop _ faults

theorem wp_resume (h : Inv host base policy clean s) :
    wp (resume host) (fun _ s' => Inv host base policy clean s') (Stops host base policy clean) s := by
  refine wp_getState ?_
  refine wp_stopIf (fun hphase => ?_) fun _ => h
  refine wp_stopIf (fun _ => ?_) fun _ => h
  rw [wp_bind]
  refine wp_requireMatch (fun faults => ?_) fun stop faults => Coherent.stops h stop faults
  have hphase' : s.state.phase = .interrupted := not_not.1 hphase
  refine wp_modifyState (wp_recordLast rfl (Coherent.set_state h ?_ ?_))
  · exact h.held.rephase (.inr hphase') (by simp)
  · show s.state.phase = _ → _
    rw [hphase']
    simp

theorem wp_authorizeExisting {allowed : List Text}
    (hok : ∀ faults, path ∈ allowed → wp (g ⟨⟩) R E { s with faults := faults }) (hstop : MayStop E s) :
    wp (authorizeExisting path allowed >>= g) R E s := by
  simp only [authorizeExisting, bind_assoc]
  refine wp_lift (fun _ _ => ?_) fun _ _ => hstop _ s.faults
  refine wp_stopIf (fun hmem => ?_) fun _ => hstop _ s.faults
  exact wp_observe (fun _ faults _ => hok faults (not_not.1 hmem)) hstop

theorem wp_authorizeWrite
    (hok : ∀ faults, path ∈ s.state.policy.allowedWritePaths → wp (g ⟨⟩) R E { s with faults := faults })
    (hstop : MayStop E s) : wp (authorizeWrite path >>= g) R E s := by
  simp only [authorizeWrite, bind_assoc]
  refine wp_lift (fun _ _ => ?_) fun _ _ => hstop _ s.faults
  refine wp_getState ?_
  refine wp_stopIf (fun hmem => ?_) fun _ => hstop _ s.faults
  exact wp_observe (fun _ faults _ => hok faults (not_not.1 hmem)) hstop

theorem wp_recordArtifact (h : Inv host base policy clean s) :
    wp (recordArtifact host path) (fun _ s' => Inv host base policy clean s')
      (Stops host base policy clean) s := by
  refine wp_authorizeExisting (fun faults _ => ?_) fun stop faults => Coherent.stops h stop faults
  refine wp_observe (fun digest faults _ => ?_) fun stop faults => Coherent.stops h stop faults
  cases digest with
  | none => exact h
  | some digest =>
    refine wp_modifyState (wp_recordLast rfl (Coherent.set_state h ?_ id))
    exact h.held.congr rfl rfl rfl rfl

/-- A commit of a clean transaction without a pending effect. -/
theorem wp_commitLocal (h : Inv host base policy true s) (hpending : s.state.pendingEffect = none) :
    wp (commitLocal host) (fun _ s' => Inv host base policy true s') (Stops host base policy true) s := by
  refine wp_requireActive (fun hphase => ?_) fun message => h
  rw [wp_bind]
  refine wp_recordOther rfl h fun s' hs' _ hstate => ?_
  obtain ⟨_, _, _, hstate⟩ := hstate
  have hphase' : s'.state.phase = .active := by rw [hstate]; exact hphase
  have hpending' : s'.state.pendingEffect = none := by rw [hstate]; exact hpending
  refine wp_modifyState (wp_recordLast rfl (hs'.set_state ?_ fun _ => rfl))
  exact hs'.held.rephase (.inl hphase') fun _ => ⟨rfl, hpending'⟩

/-! ### Aborting -/

theorem wp_restoreBase (hspares : host.Spares)
    (hok : ∀ s', s'.state = s.state → s'.tree.node [stateFile] = s.tree.node [stateFile] → Q ⟨⟩ s')
    (hstop : ∀ stop s', s'.state = s.state → s'.tree.node [stateFile] = s.tree.node [stateFile] →
      E stop s') : wp (restoreBase host) Q E s := by
  unfold restoreBase
  rw [wp_bind, wp_get, wp_bind]
  refine wp_change (fun faults => ?_) fun stop faults t ht => hstop _ _ rfl (hspares.reset _ _ _ ht)
  have hreset := hspares.reset _ _ _ (left_getLastD s.tree (host.reset s.state.baseSha s.tree))
  refine wp_change (fun faults => ?_) fun stop faults t ht =>
    hstop _ _ rfl ((hspares.clean _ _ ht).trans hreset)
  exact hok _ rfl ((hspares.clean _ _ (left_getLastD _ _)).trans hreset)

/-- How an abort may stop: a transaction stays clean if the worktree is as before. -/
def AbortStops (host : Host) (base : Worktree) (policy : WorkspacePolicy) (clean : Bool) (tree : Worktree)
    (stop : Stop) (s : Session) : Prop :=
  ∃ clean', (clean' = false → clean = false ∨ ¬ Same tree s.tree) ∧
    Stops host base policy clean' stop s

/-- While a transaction is not committed, the worktree can change around the state file.  It stays clean if
nothing else has changed. -/
theorem Coherent.set_tree (h : Inv host base policy clean s) (hphase : s.state.phase ≠ .committed)
    (hfile : s'.tree.node [stateFile] = s.tree.node [stateFile]) :
    ∃ clean', (clean' = false → clean = false ∨ ¬ Same s.tree s'.tree) ∧
      ∀ state, (∀ c, Held host base policy c s'.tree s.state → Held host base policy c s'.tree state) →
        Inv host base policy clean' { s' with state := state } := by
  obtain ⟨durable, hdurable, hkept, hheld, hcommitted⟩ := h
  have hnot : durable.phase ≠ .committed := fun hd => hphase (hcommitted hd)
  by_cases hsame : Same s.tree s'.tree
  · exact ⟨clean, .inl, fun state hstate => ⟨durable, hdurable.of_node hfile, hkept.same hsame,
      hstate clean (hheld.same hsame), fun hd => absurd hd hnot⟩⟩
  · exact ⟨false, fun _ => .inr hsame, fun state hstate => ⟨durable, hdurable.of_node hfile,
      hkept.weaken hnot, hstate false (hheld.weaken hphase), fun hd => absurd hd hnot⟩⟩

theorem wp_abort (hspares : host.Spares) (h : Inv host base policy clean s) :
    wp (abort host) (fun _ s' => Inv host base policy clean s')
      (AbortStops host base policy clean s.tree) s := by
  refine wp_getState ?_
  refine wp_stopIf (fun hlive => ?_) fun _ => ⟨clean, .inl, h⟩
  have hphase : s.state.phase ≠ .committed := fun hcommitted => hlive (.inl hcommitted)
  rw [wp_bind]
  refine wp_restoreBase hspares (fun s₁ hstate hfile => ?_) fun stop s₁ hstate hfile => ?_
  · -- From here on the handle is aborted, and the disk is so once the state is written.
    obtain ⟨clean', hclean, hinv⟩ := h.set_tree hphase hfile
    refine wp_modifyState (within_refreshFingerprints.wp_bind (fun _ s₂ hs₂ => ?_) fun stop s₂ hs₂ => ?_)
    all_goals
      have hinv₂ : Inv host base policy clean' s₂ := by
        refine (hinv _ fun c _ => .of_aborted ?_ rfl).refreshed hs₂
        exact (congrArg (·.policy) hstate).trans h.held.policy_eq
    · have haborted : s₂.state.phase = .aborted := hs₂.phase
      have hsame₂ : ∀ s₃ : Session, Same s₂.tree s₃.tree → clean' = false →
          clean = false ∨ ¬ Same s.tree s₃.tree := by
        intro s₃ hs₃ hfalse
        refine (hclean hfalse).imp id fun hnot hsame => hnot (hsame.trans ?_)
        rw [← hs₂.tree]
        exact hs₃.symm
      refine wp_record (rules host base policy clean') (hinv₂.set_state (hinv₂.held.event rfl) id)
        (fun s₃ hs₃ _ hstate₃ hdurable₃ => ?_) (fun _ s₃ hs₃ hsame₃ => ⟨clean', hsame₂ s₃ hsame₃, hs₃⟩)
        fun s₃ hs₃ hsame₃ => ⟨clean', hsame₂ s₃ hsame₃, hs₃⟩
      have hheld₃ : Held host base policy clean s₃.tree s₃.state :=
        .of_aborted hs₃.held.policy_eq (hstate₃.phase.trans haborted)
      exact ⟨s₃.state, hdurable₃, hheld₃, hheld₃, id⟩
    · refine ⟨clean', ?_, hinv₂.stops stop s₂.faults⟩
      rw [hs₂.tree]
      exact hclean
  · obtain ⟨clean', hclean, hinv⟩ := h.set_tree hphase hfile
    refine ⟨clean', hclean, ?_⟩
    have hinv₁ := hinv s₁.state fun _ hheld => by rwa [hstate]
    exact hinv₁.stops stop s₁.faults

/-! ### Effects -/

/-- What is known of a clean transaction when an effect has been applied and is to be finished: the worktree
before it, by the journal, and after it. -/
def Applied (host : Host) (base : Worktree) (e : Effect) (content : Option Content)
    (events : List AuditEvent) (tree : Worktree) : Prop :=
  ∃ R R', Journalled host base events R ∧ secureFileContent R e.digested = .ok content ∧
    e.apply R = .ok R' ∧ Same tree R'

/-- Once its event is in the journal, an effect that has been applied is no longer pending. -/
theorem Applied.held {content : Option Content}
    (h : clean = true → Applied host base e content a.events tree) (hpolicy : a.policy = policy)
    (hphase : a.phase = .active) (hsame : Same tree tree') : Held host base policy clean tree'
      { withEvent a e.operation e.subject (e.digests host (content.map host.digest)) with
        pendingEffect := none } := by
  refine ⟨hpolicy, fun _ => by simp [withEvent, hphase], fun hclean _ _ => ?_⟩
  obtain ⟨R, R', hjournal, hcontent, happly, hR⟩ := h hclean
  exact ⟨R', .effect hjournal ⟨rfl, rfl, content, hcontent, rfl⟩ happly, hsame.symm.trans hR⟩

/-- Finishing an effect that has been applied. -/
theorem wp_finishEffect {content : Option Content} {creates : Bool} (hdurable : Durable s.tree s.state)
    (hpolicy : s.state.policy = policy) (hphase : s.state.phase = .active)
    (hpending : s.state.pendingEffect ≠ none)
    (happlied : clean = true → Applied host base e content s.state.events s.tree) :
    wp (finishEffect host e.operation e.subject (e.digests host (content.map host.digest))
        e.changedPaths creates)
      (fun _ s' => Inv host base policy clean s') (Stops host base policy clean) s := by
  have hheld : ∀ state : TransactionState, state.policy = s.state.policy → state.phase = .active →
      state.pendingEffect ≠ none → Held host base policy clean s.tree state :=
    fun state hp hph hpe => .of_pending (hp.trans hpolicy) (by simp [hph]) hpe
  unfold finishEffect
  rw [wp_bind]
  refine wp_record (rules host base policy clean) ⟨s.state, hdurable, hheld _ rfl hphase hpending,
      hheld _ rfl hphase hpending, by simp [hphase]⟩ (fun s₁ hs₁ hsame₁ hstate₁ _ => ?_)
    (fun _ _ hs₁ _ => hs₁) fun _ hs₁ _ => hs₁
  -- The event is in the journal and the effect no longer pending, if only for the handle.
  have hinv₁ : Inv host base policy clean { s₁ with state := { s₁.state with pendingEffect := none } } := by
    obtain ⟨_, _, _, hstate₁⟩ := hstate₁
    refine hs₁.set_state ?_ id
    rw [hstate₁]
    exact (Applied.held happlied hpolicy hphase hsame₁).congr rfl rfl rfl rfl
  have hstops : ∀ stop s', Refreshed _ s' → Stops host base policy clean stop s' :=
    fun stop s' hs' => (hinv₁.refreshed hs').stops stop s'.faults
  refine wp_modifyState ?_
  refine (within_updateCache _).wp_bind (fun _ s₂ hs₂ => ?_) hstops
  refine within_refreshScoped.wp_bind (fun _ s₃ hs₃ => ?_) fun stop s' hs' =>
    hstops stop s' (trans_of Refreshed hs₂ hs')
  refine (within_onlyIf _ within_refreshUnscoped).wp_bind (fun _ s₄ hs₄ => ?_) fun stop s' hs' =>
    hstops stop s' (trans_of Refreshed hs₂ (trans_of Refreshed hs₃ hs'))
  have hinv₄ := ((hinv₁.refreshed hs₂).refreshed hs₃).refreshed hs₄
  exact wp_persist (rules host base policy clean) hinv₄ (fun _ hs' _ _ _ => hs') (fun _ _ hs' _ => hs')
    fun _ hs' _ => hs'

theorem wp_authorize
    (hok : ∀ faults, (∀ path ∈ e.changedPaths, path ∈ s.state.policy.allowedWritePaths) →
      wp (g ⟨⟩) R E { s with faults := faults })
    (hstop : MayStop E s) : wp (e.authorize >>= g) R E s := by
  cases e with
  | write path bytes =>
    exact wp_authorizeWrite (fun faults hpath => hok faults (by simpa [changedPaths] using hpath))
      hstop
  | delete path =>
    simp only [authorize, bind_assoc]
    refine wp_getState (wp_authorizeExisting (fun faults hpath => ?_) hstop)
    exact hok faults (by simpa [changedPaths] using hpath)
  | rename source target =>
    simp only [authorize, bind_assoc]
    refine wp_getState ?_
    refine wp_authorizeExisting (fun faults hsource => ?_) hstop
    refine wp_authorizeWrite (fun faults htarget => ?_) hstop
    refine hok faults fun path hpath => ?_
    rcases mem_pair.1 hpath with rfl | rfl
    · exact hsource
    · exact htarget
  | chmod path mode =>
    simp only [authorize, bind_assoc]
    refine wp_stopIf (fun _ => ?_) fun _ => hstop _ s.faults
    refine wp_getState (wp_authorizeExisting (fun faults hpath => ?_) hstop)
    exact hok faults (by simpa [changedPaths] using hpath)

theorem wp_createsStructure {f : Bool → Io β} (hok : ∀ creates faults, e.Creates s.tree = .ok creates →
      wp (f creates) R E { s with faults := faults })
    (hstop : MayStop E s) : wp (e.createsStructure >>= f) R E s := by
  cases e with
  | write path bytes => exact wp_observe (fun creates faults hcreates => hok creates faults hcreates) hstop
  | _ => exact (wp_bind _ _).2 (hok false s.faults rfl)

theorem wp_fileDigestAuthorized {f : Option Text → Io β}
    (hok : ∀ content faults, secureFileContent s.tree path = .ok content →
      wp (f (content.map host.digest)) R E { s with faults := faults })
    (hstop : MayStop E s) :
    wp (fileDigestAuthorized host path >>= f) R E s := by
  refine wp_observe (fun digest faults hdigest => ?_) hstop
  obtain ⟨content, hcontent, rfl⟩ := map_eq_ok.1 hdigest
  exact hok content faults hcontent

theorem Effect.digested_mem (e : Effect) : e.digested ∈ e.changedPaths := by
  cases e <;> simp [digested, changedPaths]

theorem mem_policyPaths_of_write (h : path ∈ policy.allowedWritePaths) : path ∈ policyPaths policy :=
  mem_sortBy.2 (mem_dedup.2 (mem_append_right _ h))

/-- An effect that has been announced. -/
theorem wp_performEffect {content : Option Content} {creates : Bool} {R : Worktree} (hfree : e.IsFree)
    (hdurable : Durable s.tree s.state) (hpolicy : s.state.policy = policy)
    (hphase : s.state.phase = .active) (hpending : s.state.pendingEffect ≠ none)
    (hjournal : clean = true → Journalled host base s.state.events R ∧ Same s.tree R ∧
      secureFileContent R e.digested = .ok content) :
    wp (do
        e.perform
        finishEffect host e.operation e.subject (e.digests host (content.map host.digest)) e.changedPaths
          creates)
      (fun _ s' => Inv host base policy clean s') (Stops host base policy clean) s := by
  rw [wp_bind]
  refine wp_perform hfree (fun s' hstate hfile happly => ?_) fun stop s' hstate hfile => ?_
  · obtain ⟨_, _, _, _, _⟩ := s'
    obtain rfl := hstate
    refine wp_finishEffect (hdurable.of_node hfile) hpolicy hphase hpending fun hclean => ?_
    obtain ⟨hR, hsame, hcontent⟩ := hjournal hclean
    obtain ⟨R', hR', hsame'⟩ := apply_congr hsame hfree happly
    exact ⟨R, R', hR, hcontent, hR', hsame'⟩
  · have hinv : Inv host base policy clean s' := by
      refine ⟨s.state, hdurable.of_node hfile, .of_pending hpolicy (by simp [hphase]) hpending, ?_,
        by simp [hphase]⟩
      rw [hstate]
      exact .of_pending hpolicy (by simp [hphase]) hpending
    exact hinv.stops stop s'.faults

/-- An effect from the first check to the last write of the state. -/
theorem wp_runEffect (hplain : Unreserved policy) (h : Inv host base policy clean s) :
    wp (runEffect host e) (fun _ s' => Inv host base policy clean s')
      (Stops host base policy clean) s := by
  have hlook : ∀ stop faults, Stops host base policy clean stop { s with faults := faults } := h.stops
  refine wp_requireActive (fun hphase => ?_) fun message => hlook _ s.faults
  refine wp_authorize (fun faults hallowed => ?_) hlook
  refine wp_createsStructure (fun creates faults _ => ?_) hlook
  refine wp_fileDigestAuthorized (fun content faults hcontent => ?_) hlook
  have hfree : e.IsFree := by
    intro path hpath
    have hmem := mem_policyPaths_of_write (hallowed path hpath)
    rw [h.held.policy_eq] at hmem
    exact hplain path hmem
  rw [wp_bind]
  refine wp_recordOther rfl (Coherent.set_state h h.held id) fun s₁ hs₁ hsame₁ hstate₁ => ?_
  have hphase₁ : s₁.state.phase = .active := by
    obtain ⟨_, _, _, hstate₁⟩ := hstate₁
    rw [hstate₁]
    exact hphase
  rw [wp_bind]
  refine wp_stopIf (fun hnone => ?_) fun _ => hs₁
  refine wp_persist (rules host base policy clean)
    (hs₁.set_state (.of_pending hs₁.held.policy_eq (by simp [hphase₁]) (by simp)) (by simp))
    (fun s₂ hs₂ hsame₂ hstate₂ hdurable₂ => ?_) (fun _ _ hs₂ _ => hs₂) fun _ hs₂ _ => hs₂
  obtain ⟨_, _, _, hstate₂⟩ := hstate₂
  have hphase₂ : s₂.state.phase = .active := by rw [hstate₂]; exact hphase₁
  have hpending₂ : s₂.state.pendingEffect ≠ none := by rw [hstate₂]; simp
  obtain ⟨R, hR⟩ : ∃ R, clean = true → Journalled host base s₁.state.events R ∧ Same s₁.tree R := by
    cases clean with
    | false => exact ⟨base, by simp⟩
    | true =>
      obtain ⟨R, hR⟩ := hs₁.held.tracked rfl (by simpa using hnone) (by simp [hphase₁])
      exact ⟨R, fun _ => hR⟩
  refine wp_performEffect (R := R) hfree hdurable₂ hs₂.held.policy_eq hphase₂ hpending₂ fun hclean => ?_
  obtain ⟨hjournal, hsame⟩ := hR hclean
  refine ⟨?_, hsame₂.symm.trans hsame, ?_⟩
  · rw [hstate₂]
    exact hjournal
  · rw [← secureFileContent_congr (hsame₁.trans hsame) (hfree _ e.digested_mem)]
    exact hcontent

/-! ### A machine -/

def hexDigits (bytes : Bytes) : Text :=
  bytes.flatMap fun b => [Nat.digitChar (b.toNat / 16), Nat.digitChar (b.toNat % 16)]

/-- A digest with the form of SHA-256. -/
def paddedDigest (bytes : Bytes) : Text :=
  "sha256:".toList ++ (hexDigits bytes ++ replicate 64 '0').take 64

/-- `serde_json` of a policy whose texts need no escapes. -/
def policyJson (policy : WorkspacePolicy) : Text :=
  let texts (l : List Text) : Text :=
    ['['] ++ [','].intercalate (l.map fun t => ['"'] ++ t ++ ['"']) ++ [']']
  let flag (b : Bool) : Text := (if b then "true" else "false").toList
  "\x7b\"allowed_read_paths\":".toList ++ texts policy.allowedReadPaths ++
    ",\"allowed_write_paths\":".toList ++ texts policy.allowedWritePaths ++
    ",\"allowed_commands\":".toList ++ texts policy.allowedCommands ++
    ",\"allow_network\":".toList ++ flag policy.allowNetwork ++
    ",\"verified_sandbox\":".toList ++ flag policy.verifiedSandbox ++ ['\x7d']

/-- A machine without links out of the worktree, whose `git` finds nothing to do. -/
def plainHost : Host where
  root := "/w".toList
  digest
    | .raw bytes => paddedDigest bytes
    | .journal state => paddedDigest (encodeUtf8 state.transactionId)
  stateDigest state := paddedDigest (encodeUtf8 state.transactionId)
  parse _ := none
  policyBytes policy := encodeUtf8 (policyJson policy)
  follow _ _ := .error "No such file or directory (os error 2)"
  reset _ _ := []
  clean _ := []

theorem left_nil {w w' : Worktree} (h : Left w [] w') : w' = w := by
  rcases h with hsame | ⟨stage, hstage, -⟩
  · exact hsame
  · cases hstage

theorem plainHost_spares : plainHost.Spares where
  reset := fun _ _ _ h => by rw [left_nil h]
  clean := fun _ _ h => by rw [left_nil h]

end Axiomc.Workspace
