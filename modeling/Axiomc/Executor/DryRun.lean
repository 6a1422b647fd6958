import Axiomc.Executor.Protocol

/-!
# The bounded executor: dry runs

A dry run should leave the transaction alone.

* `Still`: a computation that leaves the transaction as it is;
* `Dry`: a dry run applies no proposal;
* `RollsBack`: the executor and the transaction are such that a rollback goes through to `abort`;
* `dryRun_untouched`: of the calls on a dry run, only such a rollback changes the transaction, and it
  aborts it;
* `dryRun_rolled_back`: a rollback before the proposal is one.
-/

namespace Axiomc.Executor

open Foundation Workspace

variable {host : Host} {repository : Repository} {prims : Primitives} {α β : Type} {s : Machine}
  {e e' : BoundedExecutor} {st : Step}

/-! ### Calls without effect -/

def SameWorkspace (s s' : Machine) : Prop := s'.workspace = s.workspace

instance : Std.Refl SameWorkspace where
  refl _ := rfl

instance : IsTrans Machine SameWorkspace where
  trans _ _ _ h h' := Eq.trans h' h

/-- The computation leaves the transaction as it is. -/
abbrev Still (m : Exec α) : Prop := Within SameWorkspace m

section Still

variable {c : Prop} [Decidable c] {message kind : String}

theorem still_getExecutor : Still getExecutor := fun _ => rfl

theorem still_workspaceState : Still workspaceState := fun _ => rfl

theorem still_modifyExecutor (f : BoundedExecutor → BoundedExecutor) : Still (modifyExecutor f) :=
  fun _ => rfl

theorem still_throw (stop : Stop) : Still (throw stop : Exec α) := fun _ => rfl

theorem still_ite {m m' : Exec α} (h : Still m) (h' : Still m') : Still (if c then m else m') := by
  split
  · exact h
  · exact h'

theorem still_ofExcept (r : Except String α) : Still (ofExcept r) := by
  cases r with
  | ok a => exact within_pure a
  | error message => exact still_throw _

theorem still_requireSome (value : Option α) (message : String) : Still (requireSome value message) :=
  still_ofExcept _

theorem still_failIf (message : String) : Still (failIf c message) :=
  still_ite (still_throw _) (within_pure _)

theorem still_attempt {m : Exec PUnit} (h : Still m) : Still (attempt m) := by
  intro s
  rw [← bind_pure (attempt m)]
  exact wp_attempt (h s)

theorem still_record (kind : String) (detail : Text) : Still (record host prims kind detail) := by
  refine (still_modifyExecutor _).bind fun _ => still_getExecutor.bind fun e => ?_
  exact (still_ofExcept _).bind fun mac => still_modifyExecutor _

theorem still_guard : Still (guard host prims) := still_getExecutor.bind fun _ => still_ofExcept _

theorem still_requireState (expected : ExecutionState) : Still (requireState expected) :=
  still_getExecutor.bind fun _ => still_failIf _

theorem still_ensureNonterminal : Still ensureNonterminal :=
  still_getExecutor.bind fun _ => still_failIf _

theorem still_rejectIf (message : String) : Still (rejectIf host prims c message) := by
  refine still_ite ?_ (within_pure _)
  refine (still_modifyExecutor _).bind fun _ => ?_
  exact (still_attempt (still_record _ _)).bind fun _ => still_throw _

theorem still_escalateIf (kind : String) (detail : Text) (message : String) :
    Still (escalateIf host prims c kind detail message) := by
  refine still_ite ?_ (within_pure _)
  exact (still_modifyExecutor _).bind fun _ => (still_record _ _).bind fun _ => still_throw _

theorem still_retryFailure (cause : FailureCause) (code message : Text) :
    Still (retryFailure host prims cause code message) := by
  refine still_guard.bind fun _ => still_ensureNonterminal.bind fun _ => still_getExecutor.bind fun e => ?_
  refine (still_modifyExecutor _).bind fun _ => (still_escalateIf _ _ _).bind fun _ => ?_
  refine (still_failIf _).bind fun _ => (still_escalateIf _ _ _).bind fun _ => ?_
  exact (still_modifyExecutor _).bind fun _ => still_record _ _

theorem still_failureError (cause : FailureCause) (code message : String) :
    Still (failureError host prims cause code message : Exec α) :=
  (still_attempt (still_retryFailure _ _ _)).bind fun _ => still_throw _

theorem still_countIf (cause : FailureCause) (code message : String) :
    Still (countIf host prims c cause code message) :=
  still_ite (still_failureError _ _ _) (within_pure _)

theorem still_orCount (cause : FailureCause) (code : String) (r : Except String α) :
    Still (orCount host prims cause code r) := by
  cases r with
  | ok a => exact within_pure a
  | error message => exact still_failureError _ _ _

theorem still_authorizePath (path : Text) : Still (authorizePath host prims path) :=
  still_getExecutor.bind fun _ => (still_rejectIf _).bind fun _ => still_rejectIf _

theorem still_validateWorkspace : Still (validateWorkspace host prims) := by
  refine still_workspaceState.bind fun state => still_getExecutor.bind fun e => ?_
  refine (still_rejectIf _).bind fun _ => (still_rejectIf _).bind fun _ => ?_
  refine (still_rejectIf _).bind fun _ => (still_rejectIf _).bind fun _ => ?_
  refine (still_rejectIf _).bind fun _ => (still_rejectIf _).bind fun _ => ?_
  exact (still_rejectIf _).bind fun _ => still_rejectIf _

theorem still_proposeReplace (path : Text) (current : Bytes) (find replacement : Text) :
    Still (proposeReplace host prims path current find replacement) := by
  refine still_guard.bind fun _ => (still_requireState _).bind fun _ => ?_
  refine (still_authorizePath _).bind fun _ => (still_rejectIf _).bind fun _ => ?_
  refine (still_ofExcept _).bind fun source => (still_rejectIf _).bind fun _ => ?_
  exact (still_modifyExecutor _).bind fun _ => (still_record _ _).bind fun _ => within_pure _

theorem still_bindTransaction : Still (bindTransaction host prims) := by
  refine still_guard.bind fun _ => (still_requireState _).bind fun _ => ?_
  refine still_validateWorkspace.bind fun _ => still_workspaceState.bind fun state => ?_
  exact (still_modifyExecutor _).bind fun _ => still_record _ _

theorem still_submitDelivery (evidence : SignedDeliveryEvidence)
    (provider : TrustedDeliveryEvidenceProvider) (now : Nat) :
    Still (submitDelivery host prims evidence provider now) := by
  refine still_guard.bind fun _ => (still_requireState _).bind fun _ => ?_
  refine still_validateWorkspace.bind fun _ => (still_orCount _ _ _).bind fun _ => ?_
  refine still_getExecutor.bind fun e => (still_countIf _ _ _).bind fun _ => ?_
  refine (still_requireSome _ _).bind fun verification => (still_requireSome _ _).bind fun binding => ?_
  refine (still_countIf _ _ _).bind fun _ => (still_modifyExecutor _).bind fun _ => still_record _ _

theorem still_chargeBudget (usage : BudgetUsage) : Still (chargeBudget host prims usage) := by
  refine still_guard.bind fun _ => still_ensureNonterminal.bind fun _ => still_getExecutor.bind fun e => ?_
  refine (still_failIf _).bind fun _ => (still_failIf _).bind fun _ => ?_
  refine (still_failIf _).bind fun _ => (still_failIf _).bind fun _ => ?_
  exact (still_escalateIf _ _ _).bind fun _ => (still_modifyExecutor _).bind fun _ => still_record _ _

theorem still_interrupt : Still (interrupt host prims) := by
  refine still_guard.bind fun _ => still_ensureNonterminal.bind fun _ => still_getExecutor.bind fun e => ?_
  exact (still_failIf _).bind fun _ => (still_modifyExecutor _).bind fun _ => still_record _ _

theorem still_resume : Still (resume host prims) := by
  refine still_guard.bind fun _ => (still_requireState _).bind fun _ => still_getExecutor.bind fun e => ?_
  exact (still_requireSome _ _).bind fun restored => (still_modifyExecutor _).bind fun _ => still_record _ _

theorem still_recover (stored : Except String BoundedExecutor) (request : ExecutorResumeRequest)
    (contract : AgentTaskContract) (sealKey : ExecutorSealKey) :
    Still (recover host prims stored request contract sealKey) := by
  refine (still_ofExcept _).bind fun _ => still_workspaceState.bind fun state => ?_
  refine (still_failIf _).bind fun _ => (still_ofExcept _).bind fun e => ?_
  exact (still_ofExcept _).bind fun _ => still_modifyExecutor _

theorem still_concludeRollback (aborted : Except String PUnit) :
    Still (concludeRollback host prims aborted) := by
  cases aborted with
  | ok _ =>
    exact (still_modifyExecutor _).bind fun _ => still_workspaceState.bind fun _ => still_record _ _
  | error message =>
    refine (still_modifyExecutor _).bind fun _ => ?_
    exact (still_attempt (still_record _ _)).bind fun _ => still_throw _

end Still

/-- Only three calls can change the transaction. -/
theorem still_exec (call : Call) : call = .applyProposal ∨
    (∃ verdict, call = .submitVerification verdict) ∨ call = .rollback ∨
      Still (call.exec host repository prims) := by
  cases call with
  | applyProposal => exact .inl rfl
  | submitVerification verdict => exact .inr (.inl ⟨verdict, rfl⟩)
  | rollback => exact .inr (.inr (.inl rfl))
  | proposeReplace => exact .inr (.inr (.inr ((still_proposeReplace _ _ _ _).bind fun _ => within_pure _)))
  | bindTransaction => exact .inr (.inr (.inr still_bindTransaction))
  | submitDelivery => exact .inr (.inr (.inr (still_submitDelivery _ _ _)))
  | chargeBudget => exact .inr (.inr (.inr (still_chargeBudget _)))
  | retryFailure => exact .inr (.inr (.inr (still_retryFailure _ _ _)))
  | interrupt => exact .inr (.inr (.inr still_interrupt))
  | resume => exact .inr (.inr (.inr still_resume))
  | recover => exact .inr (.inr (.inr (still_recover _ _ _ _)))

/-! ### Rollbacks -/

/-- The transaction is the executor's, is active and grants nothing beyond the task: what
`validate_workspace` asks. -/
structure Admits (e : BoundedExecutor) (state : TransactionState) : Prop where
  contract : state.taskContractDigest = e.taskContractDigest
  base : state.baseSha = e.baseSha
  active : state.phase = .active
  bound : boundElsewhere e state = false
  network : state.policy.allowNetwork = false
  commands : state.policy.allowedCommands = []
  files : ∀ path ∈ state.policy.allowedWritePaths, path ∈ e.allowedFiles
  repair : ∀ path ∈ state.policy.allowedWritePaths, outsideRepair e path = false

variable (host prims) in
/-- The executor can be rolled back, on a transaction that is its own. -/
structure RollsBack (e : BoundedExecutor) (state : TransactionState) : Prop where
  sealed : e.validateIntegrity host prims = .ok ()
  unfinished : e.state ≠ .resolved ∧ e.state ≠ .dryRun ∧ e.state ≠ .rolledBack
  admits : Admits e state

section

variable {c : Prop} [Decidable c] {message : String} {g : PUnit → Exec β} {Q : β → Machine → Prop}
  {E : Stop → Machine → Prop}

theorem wp_rejectIf_still (hpass : ¬ c → wp (g ⟨⟩) Q E s)
    (hstop : c → ∀ stop s', SameWorkspace s s' → E stop s') :
    wp (rejectIf host prims c message >>= g) Q E s := by
  by_cases h : c
  · have hrejects : rejectIf host prims c message = rejectWith host prims message := if_pos h
    have hstill : Still (rejectIf host prims c message) := still_rejectIf message
    refine (wp_bind _ _).2 (wp_mono (hstill s) (fun _ s' hexec _ => ?_) fun stop s' _ => hstop h stop s')
    -- A call that rejects does not return.
    rw [hrejects, rejectWith, exec_bind_eq_ok] at hexec
    obtain ⟨_, _, -, hexec⟩ := hexec
    rw [exec_bind_eq_ok] at hexec
    obtain ⟨_, _, -, hexec⟩ := hexec
    cases hexec
  · rw [rejectIf, if_neg h]
    exact hpass h

/-- `validate_workspace` passes if and only if the transaction is admitted. -/
theorem wp_validateWorkspace_admits (hok : Admits s.executor s.workspace.state → wp (g ⟨⟩) Q E s)
    (hstop : ¬ Admits s.executor s.workspace.state → ∀ stop s', SameWorkspace s s' → E stop s') :
    wp (validateWorkspace host prims >>= g) Q E s := by
  simp only [validateWorkspace, bind_assoc]
  refine wp_workspaceState (wp_getExecutor ?_)
  refine wp_rejectIf_still (fun hcontract => ?_) fun h => hstop fun hadmits => h hadmits.contract
  refine wp_rejectIf_still (fun hbase => ?_) fun h => hstop fun hadmits => h hadmits.base
  refine wp_rejectIf_still (fun hactive => ?_) fun h => hstop fun hadmits => h hadmits.active
  refine wp_rejectIf_still (fun hbound => ?_) fun h => hstop fun hadmits => ?_
  · refine wp_rejectIf_still (fun hnetwork => ?_) fun h => hstop fun hadmits => ?_
    · refine wp_rejectIf_still (fun hcommands => ?_) fun h => hstop fun hadmits => h hadmits.commands
      refine wp_rejectIf_still (fun hfiles => ?_) fun h => hstop fun hadmits => ?_
      · refine wp_rejectIf_still (fun hrepair => hok ?_) fun h => hstop fun hadmits => ?_
        · exact ⟨not_not.1 hcontract, not_not.1 hbase, not_not.1 hactive, by simpa using hbound,
            by simpa using hnetwork, not_not.1 hcommands, by simpa using hfiles, by simpa using hrepair⟩
        · obtain ⟨path, hpath, houtside⟩ := h
          simp [hadmits.repair path hpath] at houtside
      · obtain ⟨path, hpath, houtside⟩ := h
        exact houtside (hadmits.files path hpath)
    · simp [hadmits.network] at h
  · simp [hadmits.bound] at h

end

theorem workspace_onWorkspace {m : Io α} {f : Except String α → Exec β} (hf : ∀ r, Still (f r))
    (s : Machine) : (exec (onWorkspace m >>= f) s).2.workspace = (exec m s.workspace).2 := by
  unfold onWorkspace
  cases hexec : exec m s.workspace with
  | mk r w =>
    have hget : exec (get : Exec Machine) s = (.ok s, s) := rfl
    simp only [exec_bind, hget, hexec]
    rcases r with (message | _) | a
    · exact (hf _).exec _
    · rfl
    · exact (hf _).exec _

theorem workspace_of_wp {m : Exec α} {w : Session}
    (h : wp m (fun _ s' => s'.workspace = w) (fun _ s' => s'.workspace = w) s) :
    (exec m s).2.workspace = w := by
  unfold wp at h
  split at h <;> rename_i hexec <;> rw [hexec] <;> exact h

theorem wp_of_workspace {m : Exec α} {w : Session} (h : (exec m s).2.workspace = w) :
    wp m (fun _ s' => s'.workspace = w) (fun _ s' => s'.workspace = w) s := by
  unfold wp
  split <;> rename_i hexec <;> rw [hexec] at h <;> exact h

/-- A rollback leaves what `abort` leaves, or the transaction as it is. -/
theorem workspace_rollback (s : Machine) :
    (RollsBack host prims s.executor s.workspace.state →
      (exec (rollback host prims) s).2.workspace = (exec (abort host) s.workspace).2) ∧
    (¬ RollsBack host prims s.executor s.workspace.state →
      (exec (rollback host prims) s).2.workspace = s.workspace) := by
  have haborts := workspace_onWorkspace (m := abort host) (@still_concludeRollback host prims) s
  constructor
  · intro h
    refine workspace_of_wp ?_
    rw [rollback, guard, bind_assoc]
    refine wp_getExecutor (wp_ofExcept (fun _ _ => wp_getExecutor ?_) fun message herror => ?_)
    · rw [failIf, if_neg (by simpa [not_or] using h.unfinished), pure_bind]
      exact wp_validateWorkspace_admits (fun _ => wp_of_workspace haborts) fun hnot =>
        absurd h.admits hnot
    · rw [h.sealed] at herror
      cases herror
  · intro h
    refine workspace_of_wp ?_
    rw [rollback, guard, bind_assoc]
    refine wp_getExecutor (wp_ofExcept (fun _ hsealed => wp_getExecutor ?_) fun _ _ => rfl)
    refine wp_failIf (fun hstate => ?_) rfl
    refine wp_validateWorkspace_admits (fun hadmits => absurd ?_ h) fun _ _ _ => id
    exact ⟨hsealed, by simpa [not_or] using hstate, hadmits⟩

theorem restoreBase_faultless {w : Session} (h : w.faults = []) : ∃ tree,
    exec (restoreBase host) w = (.ok ⟨⟩, { w with tree := tree, head := w.state.baseSha }) := by
  cases w
  cases h
  exact ⟨_, rfl⟩

/-- Where no step fails, `abort` aborts an active transaction. -/
theorem abort_aborts {w : Session} (hactive : w.state.phase = .active) (hfaults : w.faults = []) :
    (exec (abort host) w).2.state.phase = .aborted := by
  obtain ⟨tree, hrestored⟩ := @restoreBase_faultless host w hfaults
  have hwp : wp (abort host) (fun _ w' => w'.state.phase = .aborted) (fun _ w' => w'.state.phase = .aborted)
      w := by
    refine wp_getState (wp_stopIf (fun _ => ?_) fun hended => ?_)
    · rw [wp_bind, wp, hrestored]
      -- Neither the new fingerprints nor the event change the phase.
      refine wp_modifyState (within_refreshFingerprints.wp_bind (fun _ w₂ hw₂ => ?_) fun _ w₂ hw₂ => ?_)
      · refine wp_modifyState (wp_mono (within_persist _) (fun _ w₃ _ hw₃ => ?_) fun _ w₃ _ hw₃ => ?_)
        · exact hw₃.phase.trans hw₂.phase
        · exact hw₃.phase.trans hw₂.phase
      · exact hw₂.phase
    · rw [hactive] at hended
      simp at hended
  unfold wp at hwp
  split at hwp <;> rename_i hexec <;> rw [hexec] <;> exact hwp

/-! ### Dry runs -/

/-- A dry run has applied nothing. -/
structure Dry (e : BoundedExecutor) : Prop where
  dryRun : e.dryRun = true
  unedited : stage e ≠ .edited

theorem Quiet.dry (hquiet : Quiet e e') (h : Dry e) : Dry e' := by
  obtain ⟨_, _, _, _, _, rfl⟩ := hquiet
  exact ⟨h.dryRun, h.unedited⟩

theorem Dry.next (h : Dry e) (hmoves : Moves host repository prims e st e')
    (hrecover : ∀ stored request contract sealKey,
      st.call ≠ .recover (.ok stored) request contract sealKey) : Dry e' := by
  have hstate : e.state ≠ .edited := fun hstate => h.unedited (by rw [stage, hstate]; rfl)
  cases hmoves with
  | quiet hquiet => exact hquiet.dry h
  | ends hends =>
    refine ⟨hends.dryRun.trans h.dryRun, ?_⟩
    have hended := hends.ended
    rw [stage, if_neg] <;> intro heq <;> rw [heq] at hended <;> cases hended
  | proposed _ _ _ hquiet => exact hquiet.dry ⟨h.dryRun, by simp [stage, h.dryRun]⟩
  | bound _ hquiet => exact hquiet.dry ⟨h.dryRun, h.unedited⟩
  | applied _ _ hdry =>
    rw [h.dryRun] at hdry
    cases hdry
  | refuted hedited | verified _ hedited => exact absurd hedited hstate
  | delivered _ _ _ _ _ _ hquiet => exact hquiet.dry ⟨h.dryRun, by simp [stage]⟩
  | interrupted _ _ hquiet => exact hquiet.dry ⟨h.dryRun, hstate⟩
  | resumed hinterrupted hfrom hquiet =>
    have hrestored := h.unedited
    rw [stage, if_pos hinterrupted, hfrom] at hrestored
    refine hquiet.dry ⟨h.dryRun, ?_⟩
    unfold stage
    split
    · simp
    · exact hrestored
  | recovered hcall => exact absurd hcall (hrecover _ _ _ _)

variable (host repository prims) in
/-- An executor made with `dry_run`, or by calls and recoveries from it.  A recovery is given the state
of any of these executors, without the key. -/
inductive DryRun : BoundedExecutor → Prop
  | new {contract baseSha retryPolicy sealKey start} :
      newWithRetryPolicy host prims contract baseSha true retryPolicy sealKey = .ok start → DryRun start
  | call {x} {st : Step} : DryRun x →
      (∀ stored request contract sealKey, st.call ≠ .recover (.ok stored) request contract sealKey) →
      DryRun (step host repository prims x st)
  | recover {x y request contract sealKey} {st : Step} : DryRun x → DryRun y →
      st.call = .recover (.ok { y with sealKey := none }) request contract sealKey →
      DryRun (step host repository prims x st)

theorem DryRun.dry (h : DryRun host repository prims e) : Dry e := by
  induction h with
  | new hnew =>
    obtain ⟨mac, rfl⟩ := newWithRetryPolicy_eq_ok hnew
    exact ⟨rfl, nofun⟩
  | call _ hrecover ih => exact ih.next (step_moves _ _) hrecover
  | recover _ _ hcall ih ih' =>
    rcases step_recover _ hcall with hsame | ⟨_, hstored, hstep⟩
    · rwa [hsame]
    · cases hstored
      rw [hstep]
      exact ⟨ih'.dryRun, ih'.unedited⟩

variable (host repository prims) in
/-- The transaction after a call on an executor. -/
def workspaceAfter (e : BoundedExecutor) (st : Step) : Session :=
  (exec (st.call.exec host repository prims) ⟨e, st.workspace⟩).2.workspace

theorem Dry.still (h : Dry e) (hrollback : st.call ≠ .rollback) :
    workspaceAfter host repository prims e st = st.workspace := by
  unfold workspaceAfter
  rcases still_exec st.call with happly | ⟨verdict, hverify⟩ | hback | hstill
  · rw [happly]
    refine workspace_of_wp (wp_guard (fun _ => ?_) fun _ => rfl)
    exact wp_getExecutor (wp_failIf (fun hdry => absurd h.dryRun hdry) rfl)
  · rw [hverify]
    refine workspace_of_wp (wp_guard (fun _ => ?_) fun _ => rfl)
    exact wp_requireState (fun hstate => absurd (by rw [stage, hstate]; rfl) h.unedited) fun _ => rfl
  · exact absurd hback hrollback
  · exact hstill.exec _

/-- The worktree, the head and the state of the transaction are as they were. -/
structure Untouched (w w' : Session) : Prop where
  tree : w'.tree = w.tree
  head : w'.head = w.head
  state : w'.state = w.state

/-- A call on a dry run leaves the transaction as it is, unless it is a rollback that the executor and
the transaction allow.  Such a rollback aborts the transaction, where none of its steps fails. -/
theorem dryRun_untouched (h : DryRun host repository prims e) :
    ((st.call = .rollback → ¬ RollsBack host prims e st.workspace.state) →
      Untouched st.workspace (workspaceAfter host repository prims e st)) ∧
    (st.call = .rollback → RollsBack host prims e st.workspace.state → st.workspace.faults = [] →
      (workspaceAfter host repository prims e st).state.phase = .aborted) := by
  constructor
  · intro hcall
    have hsame : workspaceAfter host repository prims e st = st.workspace := by
      by_cases hrollback : st.call = .rollback
      · rw [workspaceAfter, hrollback]
        exact (workspace_rollback ⟨e, st.workspace⟩).2 (hcall hrollback)
      · exact h.dry.still hrollback
    rw [hsame]
    exact ⟨rfl, rfl, rfl⟩
  · intro hcall hback hfaults
    rw [workspaceAfter, hcall]
    refine (congrArg (·.state.phase) ((workspace_rollback ⟨e, st.workspace⟩).1 hback)).trans ?_
    exact abort_aborts hback.admits.active hfaults

def dryStart : BoundedExecutor :=
  match newWithRetryPolicy plainHost editPrims editContract editBase true ⟨[]⟩ editKey with
  | .ok e => e
  | .error _ => planned plainHost editContract editBase true ⟨[]⟩ editKey

theorem dryStart_new :
    newWithRetryPolicy plainHost editPrims editContract editBase true ⟨[]⟩ editKey = .ok dryStart := rfl

/-- The executor after its proposal, which a rollback refuses. -/
def dryProposed : BoundedExecutor := step plainHost editRepository editPrims dryStart editProposal

theorem dryProposed_untouched : dryProposed.state = .dryRun ∧
    Untouched editWorkspace
      (workspaceAfter plainHost editRepository editPrims dryProposed ⟨.rollback, editWorkspace⟩) := by
  have hstate : dryProposed.state = .dryRun := by decide +kernel
  have hdry : DryRun plainHost editRepository editPrims dryProposed :=
    .call (.new dryStart_new) fun _ _ _ _ h => by cases h
  have huntouched := (@dryRun_untouched plainHost editRepository editPrims dryProposed
    ⟨.rollback, editWorkspace⟩ hdry).1 fun _ hback => hback.unfinished.2.1 hstate
  exact ⟨hstate, huntouched⟩

/-- A dry run that has made no proposal yet is rolled back: the transaction is aborted. -/
theorem dryRun_rolled_back : DryRun plainHost editRepository editPrims dryStart ∧
    editWorkspace.state.phase = .active ∧
    (workspaceAfter plainHost editRepository editPrims dryStart ⟨.rollback, editWorkspace⟩).state.phase =
      .aborted := by
  refine ⟨.new dryStart_new, ?_, ?_⟩
  · decide +kernel
  · decide +kernel

end Axiomc.Executor
