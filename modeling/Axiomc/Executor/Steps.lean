import Axiomc.Executor.Calls

/-!
# The bounded executor: what a call can do

Each call either leaves the stage of the work as it was, or ends it, or moves it on by one step.

* `Quiet`: executors that differ in their budgets, failures, events and seal at most;
* `Ends`: the executor is rolled back, rejected or escalated;
* `Moves`: all that a call can do;
* `step_moves`: every call does one of these;
* `step_rollback`: a rollback that is not refused ends the work.
-/

namespace Axiomc.Executor

open Foundation Workspace

variable {host : Host} {repository : Repository} {prims : Primitives} {α : Type} {s : Machine}
  {Q : α → Machine → Prop} {E : Stop → Machine → Prop}

/-! ### Rules -/

variable {r : Except String α} {c : Prop} {message kind : String} {e : BoundedExecutor}
  {detail : Text} {cause : FailureCause} {w : Session}
  {β : Type} {f : α → Exec β} {g : PUnit → Exec β} {R : β → Machine → Prop}

theorem wp_ofExcept (hok : ∀ a, r = .ok a → wp (f a) R E s)
    (herror : ∀ message, r = .error message → E (.error message) s) : wp (ofExcept r >>= f) R E s := by
  cases r with
  | ok a => exact hok a rfl
  | error message => exact herror message rfl

theorem wp_getExecutor {f : BoundedExecutor → Exec β} (h : wp (f s.executor) R E s) :
    wp (getExecutor >>= f) R E s := (wp_bind _ _).2 h

theorem wp_workspaceState {f : TransactionState → Exec β} (h : wp (f s.workspace.state) R E s) :
    wp (workspaceState >>= f) R E s := (wp_bind _ _).2 h

theorem wp_modifyExecutor {change : BoundedExecutor → BoundedExecutor}
    (h : wp (g ⟨⟩) R E { s with executor := change s.executor }) :
    wp (modifyExecutor change >>= g) R E s := (wp_bind _ _).2 h

theorem wp_failIf [Decidable c] (hpass : ¬ c → wp (g ⟨⟩) R E s) (hstop : E (.error message) s) :
    wp (failIf c message >>= g) R E s := by
  rw [failIf]
  by_cases h : c
  · rw [if_pos h]
    exact hstop
  · rw [if_neg h]
    exact hpass h

theorem wp_attempt {m : Exec PUnit}
    (h : wp m (fun _ s' => wp (g ⟨⟩) R E s') (fun _ s' => wp (g ⟨⟩) R E s') s) :
    wp (attempt m >>= g) R E s := by
  rw [wp_bind]
  cases hexec : exec m s with
  | mk r s' =>
    have hrun : exec (attempt m) s = (.ok ⟨⟩, s') := by
      have hm : StateT.run m.run s = (r, s') := hexec
      simp only [exec, attempt, ExceptT.run_mk, StateT.run_bind, hm]
      rfl
    simp only [wp, hrun]
    simp only [wp, hexec] at h
    cases r with
    | ok a => exact h
    | error stop => exact h

theorem wp_onWorkspace {m : Io α} {f : Except String α → Exec β}
    (hok : ∀ a w, exec m s.workspace = (.ok a, w) → wp (f (.ok a)) R E { s with workspace := w })
    (herror : ∀ message w, wp (f (.error message)) R E { s with workspace := w })
    (hcrash : ∀ w, E .crash { s with workspace := w }) : wp (onWorkspace m >>= f) R E s := by
  rw [wp_bind, onWorkspace, wp_bind, wp_get]
  cases hexec : exec m s.workspace with
  | mk r w =>
    cases r with
    | ok a => exact hok a w hexec
    | error stop =>
      cases stop with
      | error message => exact herror message w
      | crash => exact hcrash w

theorem wp_requireSome {value : Option α} (hok : ∀ a, value = some a → wp (f a) R E s)
    (hstop : E (.error message) s) : wp (requireSome value message >>= f) R E s := by
  cases value with
  | some a => exact hok a rfl
  | none => exact hstop

/-! ### Events -/

/-- The executor has the key of its seal. -/
def Keyed (e : BoundedExecutor) : Prop := ∃ key, e.sealKey = some key ∧ key.keyId = e.sealKeyId

/-- The executors differ in their budgets, failures, events and seal at most. -/
def Quiet (e e' : BoundedExecutor) : Prop :=
  ∃ budgets failures events stateDigest sealMac,
    e' = { e with
      budgets := budgets
      failures := failures
      events := events
      stateDigest := stateDigest
      sealMac := sealMac }

theorem Quiet.refl (e : BoundedExecutor) : Quiet e e := ⟨_, _, _, _, _, rfl⟩

theorem Quiet.trans {e' e'' : BoundedExecutor} (h : Quiet e e') (h' : Quiet e' e'') : Quiet e e'' := by
  obtain ⟨_, _, _, _, _, rfl⟩ := h
  obtain ⟨_, _, _, _, _, rfl⟩ := h'
  exact ⟨_, _, _, _, _, rfl⟩

theorem computeSeal_of_keyed (h : Keyed e) : ∃ mac, e.computeSeal prims = .ok mac := by
  obtain ⟨key, hkey, hid⟩ := h
  simp only [BoundedExecutor.computeSeal, hkey]
  exact ⟨_, check_bind_eq_ok.2 ⟨reject_eq_ok.2 (not_not.2 hid), rfl⟩⟩

theorem keyed_of_computeSeal {mac : Text} (h : e.computeSeal prims = .ok mac) : Keyed e := by
  unfold BoundedExecutor.computeSeal at h
  split at h
  · cases h
  · rename_i key hkey
    obtain ⟨hid, -⟩ := check_bind_eq_ok.1 h
    exact ⟨key, hkey, not_not.1 (reject_eq_ok.1 hid)⟩

theorem wp_guard (hok : Keyed s.executor → wp (g ⟨⟩) R E s)
    (hstop : ∀ message, E (.error message) s) : wp (guard host prims >>= g) R E s := by
  rw [guard, bind_assoc]
  refine wp_getExecutor (wp_ofExcept (fun _ h => ?_) fun message _ => hstop message)
  obtain ⟨-, h⟩ := check_bind_eq_ok.1 h
  obtain ⟨mac, hmac, -⟩ := bind_eq_ok.1 h
  exact hok (keyed_of_computeSeal hmac)

/-- An event is recorded and sealed. -/
theorem wp_record {Q : PUnit → Machine → Prop} (hkeyed : Keyed s.executor)
    (hok : ∀ e', Quiet s.executor e' → Q ⟨⟩ { s with executor := e' }) :
    wp (record host prims kind detail) Q E s := by
  unfold record
  refine wp_modifyExecutor ?_
  refine wp_getExecutor ?_
  have hkeyed' : Keyed (s.executor.withEvent host prims kind.toList detail) := hkeyed
  obtain ⟨mac, hmac⟩ := @computeSeal_of_keyed prims _ hkeyed'
  refine wp_ofExcept (fun mac' _ => ?_) fun message herror => ?_
  · exact hok _ ⟨_, _, _, _, _, rfl⟩
  · rw [hmac] at herror
    cases herror

theorem wp_requireState {expected : ExecutionState}
    (hok : s.executor.state = expected → wp (g ⟨⟩) R E s) (hstop : ∀ message, E (.error message) s) :
    wp (requireState expected >>= g) R E s := by
  rw [requireState, bind_assoc]
  exact wp_getExecutor (wp_failIf (fun h => hok (not_not.1 h)) (hstop _))

theorem wp_ensureNonterminal (hok : s.executor.state.isTerminal = false → wp (g ⟨⟩) R E s)
    (hstop : ∀ message, E (.error message) s) : wp (ensureNonterminal >>= g) R E s := by
  rw [ensureNonterminal, bind_assoc]
  exact wp_getExecutor (wp_failIf (fun h => hok (by simpa using h)) (hstop _))

/-! ### Failures -/

/-- The terminal states other than `Resolved`. -/
def ExecutionState.isEnded : ExecutionState → Bool
  | .rolledBack | .rejected | .escalated => true
  | _ => false

/-- The work on the task ends without success. -/
structure Ends (e e' : BoundedExecutor) : Prop where
  unresolved : e.state ≠ .resolved
  ended : e'.state.isEnded = true
  dryRun : e'.dryRun = e.dryRun

theorem Ends.of_quiet {e₁ e' : BoundedExecutor} (h : Quiet e₁ e') (hunresolved : e.state ≠ .resolved)
    (hended : e₁.state.isEnded = true) (hdryRun : e₁.dryRun = e.dryRun) : Ends e e' := by
  obtain ⟨_, _, _, _, _, rfl⟩ := h
  exact ⟨hunresolved, hended, hdryRun⟩

theorem ne_resolved_of_not_terminal {state : ExecutionState} (h : state.isTerminal = false) :
    state ≠ .resolved := by
  rintro rfl
  cases h

theorem wp_escalateIf [Decidable c] (hkeyed : Keyed s.executor) (hpass : ¬ c → wp (g ⟨⟩) R E s)
    (hstop : ∀ message e', Quiet { s.executor with state := .escalated } e' →
      E (.error message) { s with executor := e' }) :
    wp (escalateIf host prims c kind detail message >>= g) R E s := by
  rw [wp_bind, escalateIf]
  by_cases h : c
  · rw [if_pos h, escalate]
    refine wp_modifyExecutor ?_
    rw [wp_bind]
    exact wp_record hkeyed fun e' hquiet => hstop _ e' hquiet
  · rw [if_neg h]
    exact hpass h

section

variable (hstop : ∀ message e', Quiet s.executor e' ∨ Ends s.executor e' →
  E (.error message) { s with executor := e' })
include hstop

/-- A counted failure leaves the stage as it was, or ends the work. -/
theorem wp_retryFailure {code message : Text} {Q : PUnit → Machine → Prop}
    (hok : ∀ e', Quiet s.executor e' → Q ⟨⟩ { s with executor := e' }) :
    wp (retryFailure host prims cause code message) Q E s := by
  have hsame : ∀ message, E (.error message) s := fun message => hstop message _ (.inl (Quiet.refl _))
  unfold retryFailure
  refine wp_guard (fun hkeyed => ?_) hsame
  refine wp_ensureNonterminal (fun hlive => ?_) hsame
  have hunresolved := ne_resolved_of_not_terminal hlive
  refine wp_getExecutor ?_
  refine wp_modifyExecutor ?_
  refine wp_escalateIf hkeyed (fun _ => ?_)
    fun message e' hquiet => hstop message e' (.inr (Ends.of_quiet hquiet hunresolved rfl rfl))
  refine wp_failIf (fun _ => ?_) (hstop _ _ (.inl ⟨_, _, _, _, _, rfl⟩))
  refine wp_escalateIf hkeyed (fun _ => ?_)
    fun message e' hquiet => hstop message e' (.inr (Ends.of_quiet hquiet hunresolved rfl rfl))
  refine wp_modifyExecutor (wp_record hkeyed fun e' hquiet => hok e' ?_)
  exact Quiet.trans ⟨_, _, _, _, _, rfl⟩ hquiet

theorem wp_failureError {code : String} :
    wp (failureError host prims cause code message : Exec α) Q E s := by
  refine wp_attempt (wp_retryFailure (fun _ => ?_) fun e' hquiet => ?_)
  · exact hstop _
  · exact hstop _ e' (.inl hquiet)

theorem wp_countIf [Decidable c] {code : String} (hpass : ¬ c → wp (g ⟨⟩) R E s) :
    wp (countIf host prims c cause code message >>= g) R E s := by
  rw [countIf]
  by_cases h : c
  · rw [if_pos h]
    exact wp_failureError hstop
  · rw [if_neg h]
    exact hpass h

theorem wp_orCount {code : String} (hok : ∀ a, r = .ok a → wp (f a) R E s) :
    wp (orCount host prims cause code r >>= f) R E s := by
  cases r with
  | ok a => exact hok a rfl
  | error message => exact wp_failureError hstop

end

/-! ### Checks -/

section

variable (hkeyed : Keyed s.executor) (hunresolved : s.executor.state ≠ .resolved)
  (hstop : ∀ message s', Ends s.executor s'.executor → E (.error message) s')
include hkeyed hunresolved hstop

theorem wp_rejectIf [Decidable c] (hpass : ¬ c → wp (g ⟨⟩) R E s) :
    wp (rejectIf host prims c message >>= g) R E s := by
  rw [wp_bind, rejectIf]
  by_cases h : c
  · rw [if_pos h]
    refine wp_modifyExecutor ?_
    refine wp_attempt (wp_record hkeyed fun e' hquiet => ?_)
    exact hstop _ _ (Ends.of_quiet hquiet hunresolved rfl rfl)
  · rw [if_neg h]
    exact hpass h

theorem wp_authorizePath {path : Text} (hok : path ∈ s.executor.allowedFiles →
      outsideRepair s.executor path = false → wp (g ⟨⟩) R E s) :
    wp (authorizePath host prims path >>= g) R E s := by
  simp only [authorizePath, bind_assoc]
  refine wp_getExecutor ?_
  refine wp_rejectIf hkeyed hunresolved hstop fun hallowed => ?_
  refine wp_rejectIf hkeyed hunresolved hstop fun hrepair => ?_
  exact hok (by simpa using (not_or.1 hallowed).2) (by simpa using hrepair)

theorem wp_validateWorkspace
    (hok : boundElsewhere s.executor s.workspace.state = false → wp (g ⟨⟩) R E s) :
    wp (validateWorkspace host prims >>= g) R E s := by
  simp only [validateWorkspace, bind_assoc]
  refine wp_workspaceState ?_
  refine wp_getExecutor ?_
  refine wp_rejectIf hkeyed hunresolved hstop fun _ => ?_
  refine wp_rejectIf hkeyed hunresolved hstop fun _ => ?_
  refine wp_rejectIf hkeyed hunresolved hstop fun _ => ?_
  refine wp_rejectIf hkeyed hunresolved hstop fun hbound => ?_
  refine wp_rejectIf hkeyed hunresolved hstop fun _ => ?_
  refine wp_rejectIf hkeyed hunresolved hstop fun _ => ?_
  refine wp_rejectIf hkeyed hunresolved hstop fun _ => ?_
  exact wp_rejectIf hkeyed hunresolved hstop fun _ => hok (by simpa using hbound)

end

/-! ### Moves -/

section Moves

variable (host) (repository) (prims)

/-- A proposal for an allowed file, whose text occurs exactly once in the file as it was shown. -/
structure Validates (e : BoundedExecutor) (path : Text) (current : Bytes) (find replacement : Text)
    (p : ReplaceTextProposal) : Prop where
  allowed : path ∈ e.allowedFiles
  inRepair : outsideRepair e path = false
  proposal : ∃ source, decodeUtf8 current = some source ∧ countMatches find source = 1 ∧
    p = proposalOf host path current find replacement source

/-- The candidate of the proposal is made from what is in the worktree and written through the
transaction. -/
def Writes (p : ReplaceTextProposal) (workspace : Session) : Prop :=
  ∃ current source w₁ w₂, exec (Workspace.read host p.path) workspace = (.ok current, w₁) ∧
    host.digest current = p.expectedBeforeDigest ∧
    decodeUtf8 (contentBytes repository current) = some source ∧
    digest host (candidateOf p.find p.replacement source) = p.candidateDigest ∧
    exec (Workspace.write host p.path (candidateOf p.find p.replacement source)) w₁ = (.ok ⟨⟩, w₂)

/-- A passing verdict without entries, for a head that holds the candidate. -/
structure Passes (p : ReplaceTextProposal) (verdict : VerificationVerdict) : Prop where
  passed : verdict.status = .passed
  missing : verdict.missing = []
  duplicate : verdict.duplicate = []
  invalid : verdict.invalid = []
  failed : verdict.failed = []
  contains : ∃ candidate, repository.showBlob verdict.deliveredHeadSha p.path = .ok candidate ∧
    digest host candidate = p.candidateDigest

/-- Evidence that the provider signed, for the given candidate, plan, head, transaction and policy. -/
structure Delivers (candidate transactionId policyDigest : Text) (verdict : VerificationVerdict)
    (evidence : SignedDeliveryEvidence) (provider : TrustedDeliveryEvidenceProvider) (now : Nat) :
    Prop where
  signed : provider.verify prims now evidence = .ok ()
  candidate : evidence.candidateDigest = candidate
  plan : evidence.planDigest = verdict.planDigest
  head : evidence.deliveredHeadSha = verdict.deliveredHeadSha
  transaction : evidence.transactionId = transactionId
  policy : evidence.policyDigest = policyDigest

/-- What a call can do to the executor. -/
inductive Moves (e : BoundedExecutor) (st : Step) : BoundedExecutor → Prop
  | quiet {e'} : Quiet e e' → Moves e st e'
  | ends {e'} : Ends e e' → Moves e st e'
  | proposed {path current find replacement p e'} :
      st.call = .proposeReplace path current find replacement → e.state = .planned →
      Validates host e path current find replacement p →
      Quiet { e with
        proposal := some p
        candidateDigest := some p.candidateDigest
        state := if e.dryRun then .dryRun else e.state } e' → Moves e st e'
  | bound {transactionId policyDigest e'} : e.state = .planned →
      Quiet { e with transactionId := transactionId, policyDigest := policyDigest } e' → Moves e st e'
  | applied {p e'} : st.call = .applyProposal → e.state = .planned → e.dryRun = false →
      e.proposal = some p → boundElsewhere e st.workspace.state = false →
      Writes host repository p st.workspace →
      Quiet { e with
        transactionId := some st.workspace.state.transactionId
        policyDigest := some st.workspace.state.policyDigest
        state := .edited } e' → Moves e st e'
  | refuted {verification binding e'} : e.state = .edited →
      Quiet { e with
        verification := verification
        candidateBinding := binding
        state := .evidenceFailed } e' → Moves e st e'
  | verified {verdict p transactionId policyDigest e'} : st.call = .submitVerification verdict →
      e.state = .edited → e.proposal = some p → e.transactionId = some transactionId →
      e.policyDigest = some policyDigest → Passes host repository p verdict →
      Quiet { e with
        verification := some verdict
        candidateBinding := some (.new host p.candidateDigest verdict.deliveredHeadSha transactionId
          policyDigest verdict.planDigest)
        state := .verificationPassed } e' → Moves e st e'
  | delivered {evidence provider now candidate verdict binding e'} :
      st.call = .submitDelivery evidence provider now → e.state = .verificationPassed →
      e.candidateDigest = some candidate → e.verification = some verdict →
      e.candidateBinding = some binding →
      Delivers prims candidate binding.transactionId binding.policyDigest verdict evidence provider now →
      Quiet { e with delivery := some evidence, state := .resolved } e' → Moves e st e'
  | interrupted {e'} : e.state.isTerminal = false → e.state ≠ .interrupted →
      Quiet { e with interruptedFrom := some e.state, state := .interrupted } e' → Moves e st e'
  | resumed {restored e'} : e.state = .interrupted → e.interruptedFrom = some restored →
      Quiet { e with interruptedFrom := none, state := restored } e' → Moves e st e'
  | recovered {stored request contract sealKey} :
      st.call = .recover (.ok stored) request contract sealKey →
      Moves e st { stored with sealKey := some sealKey }

/-- How a call may stop; a crash loses the executor that it was working on. -/
def Stopped (e : BoundedExecutor) (st : Step) : Stop → Machine → Prop
  | .error _, s => Moves host repository prims e st s.executor
  | .crash, _ => True

/-- Run from `s`, the call does one of the things that `Moves` lists. -/
def Performs (st : Step) (s : Machine) (call : Exec α) : Prop :=
  wp call (fun _ s' => Moves host repository prims s.executor st s'.executor)
    (Stopped host repository prims s.executor st) s

end Moves

variable {st : Step}

theorem stopped_same (message : String) :
    Stopped host repository prims s.executor st (.error message) { s with workspace := w } :=
  .quiet (Quiet.refl _)

theorem stopped_or (message : String) (e' : BoundedExecutor) (h : Quiet e e' ∨ Ends e e') :
    Stopped host repository prims e st (.error message) ⟨e', w⟩ := by
  rcases h with h | h
  · exact .quiet h
  · exact .ends h

theorem utf8Source_eq_ok {bytes : Bytes} {source : Text}
    (h : utf8Source bytes message = .ok source) : decodeUtf8 bytes = some source := by
  unfold utf8Source at h
  split at h
  · rename_i decoded hdecoded
    cases h
    exact hdecoded
  · cases h

theorem wp_proposeReplace {path : Text} {current : Bytes} {find replacement : Text}
    (hcall : st.call = .proposeReplace path current find replacement) :
    Performs host repository prims st s (proposeReplace host prims path current find replacement) := by
  refine wp_guard (fun hkeyed => ?_) stopped_same
  refine wp_requireState (fun hstate => ?_) stopped_same
  have hunresolved : s.executor.state ≠ .resolved := by rw [hstate]; simp
  refine wp_authorizePath hkeyed hunresolved (fun _ _ h => .ends h) fun hallowed hrepair => ?_
  refine wp_rejectIf hkeyed hunresolved (fun _ _ h => .ends h) fun _ => ?_
  refine wp_ofExcept (fun source hsource => ?_) fun message _ => stopped_same message
  refine wp_rejectIf hkeyed hunresolved (fun _ _ h => .ends h) fun hcount => ?_
  refine wp_modifyExecutor ?_
  rw [wp_bind]
  refine wp_record hkeyed fun e' hquiet => ?_
  exact .proposed hcall hstate ⟨hallowed, hrepair, source, utf8Source_eq_ok hsource,
    not_not.1 hcount, rfl⟩ hquiet

theorem wp_bindTransaction : Performs host repository prims st s (bindTransaction host prims) := by
  refine wp_guard (fun hkeyed => ?_) stopped_same
  refine wp_requireState (fun hstate => ?_) stopped_same
  refine wp_validateWorkspace hkeyed (by rw [hstate]; simp) (fun _ _ h => .ends h) fun _ => ?_
  refine wp_workspaceState ?_
  refine wp_modifyExecutor (wp_record hkeyed fun e' hquiet => ?_)
  exact .bound hstate hquiet

theorem wp_applyProposal (hcall : st.call = .applyProposal) (hworkspace : s.workspace = st.workspace) :
    Performs host repository prims st s (applyProposal host repository prims) := by
  refine wp_guard (fun hkeyed => ?_) stopped_same
  refine wp_getExecutor ?_
  refine wp_failIf (fun hdryRun => ?_) (stopped_same _)
  refine wp_requireState (fun hstate => ?_) stopped_same
  refine wp_requireSome (fun p hproposal => ?_) (stopped_same _)
  refine wp_validateWorkspace hkeyed (by rw [hstate]; simp) (fun _ _ h => .ends h) fun hbound => ?_
  refine wp_onWorkspace (fun current w₁ hread => ?_) (fun message w => ?_) fun _ => trivial
  · refine wp_orCount stopped_or fun content hcontent => ?_
    cases hcontent
    refine wp_countIf stopped_or fun hbefore => ?_
    refine wp_ofExcept (fun source hsource => ?_) fun message _ => stopped_same message
    refine wp_countIf stopped_or fun _ => ?_
    refine wp_countIf stopped_or fun hcandidate => ?_
    refine wp_onWorkspace (fun _ w₂ hwrite => ?_) (fun message w => ?_) fun _ => trivial
    · refine wp_orCount stopped_or fun _ _ => ?_
      refine wp_workspaceState ?_
      refine wp_modifyExecutor (wp_record hkeyed fun e' hquiet => ?_)
      have hidentity : w₂.state.identity = s.workspace.state.identity :=
        ((write_keeps _ _).identity hwrite).trans ((read_keeps _).identity hread)
      rw [hworkspace] at hidentity hread hbound
      obtain ⟨htransaction, hpolicy⟩ := Prod.mk.inj hidentity
      rw [htransaction, hpolicy] at hquiet
      exact .applied hcall hstate (by simpa using hdryRun) hproposal hbound
        ⟨current, source, w₁, w₂, hread, not_not.1 hbefore, utf8Source_eq_ok hsource,
          not_not.1 hcandidate, hwrite⟩ hquiet
    · refine wp_orCount ?_ fun _ h => ?_
      · exact stopped_or
      · cases h
  · refine wp_orCount ?_ fun _ h => ?_
    · exact stopped_or
    · cases h

theorem passes_of_not_contradictory {p : ReplaceTextProposal} {verdict : VerificationVerdict}
    (hstatus : verdict.status ≠ .failed) (hconsistent : verdict.isContradictory = false)
    (hcontains : ∃ candidate, repository.showBlob verdict.deliveredHeadSha p.path = .ok candidate ∧
      digest host candidate = p.candidateDigest) : Passes host repository p verdict := by
  have hpassed : verdict.status = .passed := by
    cases h : verdict.status with
    | passed => rfl
    | failed => exact absurd h hstatus
  simp only [VerificationVerdict.isContradictory, VerificationVerdict.hasFailures, hpassed] at hconsistent
  simp only [beq_self_eq_true, Bool.true_and, Bool.or_eq_false_iff, Bool.not_eq_false',
    List.isEmpty_iff] at hconsistent
  obtain ⟨⟨⟨⟨hmissing, hduplicate⟩, hinvalid⟩, hfailed⟩, -⟩ := hconsistent
  exact ⟨hpassed, hmissing, hduplicate, hinvalid, hfailed, hcontains⟩

theorem wp_submitVerification {verdict : VerificationVerdict}
    (hcall : st.call = .submitVerification verdict) :
    Performs host repository prims st s (submitVerification host repository prims verdict) := by
  refine wp_guard (fun hkeyed => ?_) stopped_same
  refine wp_requireState (fun hstate => ?_) stopped_same
  have hunresolved : s.executor.state ≠ .resolved := by rw [hstate]; simp
  refine wp_validateWorkspace hkeyed hunresolved (fun _ _ h => .ends h) fun _ => ?_
  refine wp_getExecutor ?_
  refine wp_countIf stopped_or fun _ => ?_
  refine wp_countIf stopped_or fun _ => ?_
  refine wp_countIf stopped_or fun _ => ?_
  refine wp_requireSome (fun p hproposal => ?_) (stopped_same _)
  refine wp_onWorkspace (fun _ w hauthorized => ?_) (fun message w => ?_) fun _ => trivial
  · have hcontains := exec_authorizeVerifiedCandidateCommit hauthorized
    refine wp_orCount stopped_or fun _ _ => ?_
    refine wp_requireSome (fun transactionId htransaction => ?_) (stopped_same _)
    refine wp_requireSome (fun policyDigest hpolicy => ?_) (stopped_same _)
    refine wp_modifyExecutor ?_
    refine wp_escalateIf hkeyed (fun hconsistent => ?_) fun message e' hquiet =>
      .ends (Ends.of_quiet hquiet hunresolved rfl rfl)
    unfold concludeVerification
    by_cases hfailed : verdict.status = .failed
    · rw [if_pos hfailed]
      refine wp_modifyExecutor (wp_record hkeyed fun e' hquiet => ?_)
      exact .refuted hstate hquiet
    · rw [if_neg hfailed]
      refine wp_modifyExecutor (wp_record hkeyed fun e' hquiet => ?_)
      exact .verified hcall hstate hproposal htransaction hpolicy
        (passes_of_not_contradictory hfailed (by simpa using hconsistent) hcontains) hquiet
  · refine wp_orCount ?_ fun _ h => ?_
    · exact stopped_or
    · cases h

theorem wp_submitDelivery {evidence : SignedDeliveryEvidence} {provider : TrustedDeliveryEvidenceProvider}
    {now : Nat} (hcall : st.call = .submitDelivery evidence provider now) :
    Performs host repository prims st s (submitDelivery host prims evidence provider now) := by
  refine wp_guard (fun hkeyed => ?_) stopped_same
  refine wp_requireState (fun hstate => ?_) stopped_same
  refine wp_validateWorkspace hkeyed (by rw [hstate]; simp) (fun _ _ h => .ends h) fun _ => ?_
  refine wp_orCount stopped_or fun _ hsigned => ?_
  refine wp_getExecutor ?_
  refine wp_countIf stopped_or fun hcandidate => ?_
  refine wp_requireSome (fun verdict hverdict => ?_) (stopped_same _)
  refine wp_requireSome (fun binding hbinding => ?_) (stopped_same _)
  refine wp_countIf stopped_or fun hmismatch => ?_
  simp only [deliveryMismatch, Bool.or_eq_true, bne_iff_ne, not_or, not_not]
    at hmismatch
  obtain ⟨⟨⟨⟨hplan, hhead⟩, htransaction⟩, hpolicy⟩, -⟩ := hmismatch
  refine wp_modifyExecutor (wp_record hkeyed fun e' hquiet => ?_)
  exact .delivered hcall hstate (not_not.1 hcandidate) hverdict hbinding
    ⟨hsigned, rfl, hplan, hhead, htransaction, hpolicy⟩ hquiet

/-- A rollback is refused or ends the work. -/
theorem wp_rollback :
    wp (rollback host prims) (fun _ s' => s'.executor = s.executor ∨ Ends s.executor s'.executor)
      (fun stop s' => stop = .crash ∨ s'.executor = s.executor ∨ Ends s.executor s'.executor) s := by
  have hsame : ∀ stop w, stop = Stop.crash ∨
      ({ s with workspace := w } : Machine).executor = s.executor ∨
        Ends s.executor ({ s with workspace := w } : Machine).executor := fun _ _ => .inr (.inl rfl)
  refine wp_guard (fun hkeyed => ?_) fun message => hsame _ _
  refine wp_getExecutor ?_
  refine wp_failIf (fun hopen => ?_) (hsame _ _)
  have hunresolved : s.executor.state ≠ .resolved := (not_or.1 hopen).1
  refine wp_validateWorkspace hkeyed hunresolved (fun _ _ h => .inr (.inr h)) fun _ => ?_
  refine wp_onWorkspace (fun _ w _ => ?_) (fun message w => ?_) fun _ => .inl rfl
  · show wp (modifyExecutor _ >>= _) _ _ _
    refine wp_modifyExecutor ?_
    refine wp_workspaceState (wp_record hkeyed fun e' hquiet => ?_)
    exact .inr (Ends.of_quiet hquiet hunresolved rfl rfl)
  · show wp (modifyExecutor _ >>= _) _ _ _
    refine wp_modifyExecutor ?_
    refine wp_attempt (wp_record hkeyed fun e' hquiet => ?_)
    exact .inr (.inr (Ends.of_quiet hquiet hunresolved rfl rfl))

theorem wp_chargeBudget {usage : BudgetUsage} :
    Performs host repository prims st s (chargeBudget host prims usage) := by
  refine wp_guard (fun hkeyed => ?_) stopped_same
  refine wp_ensureNonterminal (fun hlive => ?_) stopped_same
  refine wp_getExecutor ?_
  refine wp_failIf (fun _ => ?_) (stopped_same _)
  refine wp_failIf (fun _ => ?_) (stopped_same _)
  refine wp_failIf (fun _ => ?_) (stopped_same _)
  refine wp_failIf (fun _ => ?_) (stopped_same _)
  refine wp_escalateIf hkeyed (fun _ => ?_) fun message e' hquiet =>
    .ends (Ends.of_quiet hquiet (ne_resolved_of_not_terminal hlive) rfl rfl)
  refine wp_modifyExecutor (wp_record hkeyed fun e' hquiet => .quiet ?_)
  exact Quiet.trans ⟨_, _, _, _, _, rfl⟩ hquiet

theorem wp_interrupt : Performs host repository prims st s (interrupt host prims) := by
  refine wp_guard (fun hkeyed => ?_) stopped_same
  refine wp_ensureNonterminal (fun hlive => ?_) stopped_same
  refine wp_getExecutor ?_
  refine wp_failIf (fun hrunning => ?_) (stopped_same _)
  refine wp_modifyExecutor (wp_record hkeyed fun e' hquiet => ?_)
  exact .interrupted hlive hrunning hquiet

theorem wp_resume : Performs host repository prims st s (resume host prims) := by
  refine wp_guard (fun hkeyed => ?_) stopped_same
  refine wp_requireState (fun hstate => ?_) stopped_same
  refine wp_getExecutor ?_
  refine wp_requireSome (fun restored hrestored => ?_) (stopped_same _)
  refine wp_modifyExecutor (wp_record hkeyed fun e' hquiet => ?_)
  exact .resumed hstate hrestored hquiet

/-- A recovery is refused or gives the stored executor. -/
theorem wp_recover {stored : Except String BoundedExecutor} {request : ExecutorResumeRequest}
    {contract : AgentTaskContract} {sealKey : ExecutorSealKey} :
    wp (recover host prims stored request contract sealKey)
      (fun _ s' => ∃ e, stored = .ok e ∧ s'.executor = { e with sealKey := some sealKey })
      (fun _ s' => s'.executor = s.executor) s := by
  unfold recover
  refine wp_ofExcept (fun _ _ => ?_) fun _ _ => rfl
  refine wp_workspaceState ?_
  refine wp_failIf (fun _ => ?_) rfl
  refine wp_ofExcept (fun e hstored => ?_) fun _ _ => rfl
  dsimp only
  refine wp_ofExcept (fun _ _ => ?_) fun _ _ => rfl
  exact ⟨e, hstored, rfl⟩

/-- Every call does one of the things that `Moves` lists. -/
theorem wp_exec (hworkspace : s.workspace = st.workspace) :
    Performs host repository prims st s (st.call.exec host repository prims) := by
  cases hcall : st.call with
  | proposeReplace path current find replacement =>
    show wp (proposeReplace host prims path current find replacement >>= _) _ _ _
    rw [wp_bind]
    exact wp_proposeReplace hcall
  | bindTransaction => exact wp_bindTransaction
  | applyProposal => exact wp_applyProposal hcall hworkspace
  | submitVerification verdict => exact wp_submitVerification hcall
  | submitDelivery evidence provider now => exact wp_submitDelivery hcall
  | rollback =>
    refine wp_mono wp_rollback (fun _ s' _ h => ?_) fun stop s' _ h => ?_
    · rcases h with h | h
      · exact .quiet (by rw [h]; exact Quiet.refl _)
      · exact .ends h
    · rcases h with rfl | h | h
      · trivial
      · cases stop with
        | crash => trivial
        | error message => exact .quiet (by rw [h]; exact Quiet.refl _)
      · cases stop with
        | crash => trivial
        | error message => exact .ends h
  | chargeBudget usage => exact wp_chargeBudget
  | retryFailure cause code message =>
    exact wp_retryFailure stopped_or fun _ h => .quiet h
  | interrupt => exact wp_interrupt
  | resume => exact wp_resume
  | recover stored request contract sealKey =>
    refine wp_mono wp_recover (fun _ s' _ h => ?_) fun stop s' _ h => ?_
    · obtain ⟨e, rfl, he⟩ := h
      rw [he]
      exact .recovered hcall
    · cases stop with
      | crash => trivial
      | error message => exact .quiet (by rw [h]; exact Quiet.refl _)

/-- What a call ensures holds of the executor after the step; a crash leaves it as it was. -/
theorem step_of_wp {P : BoundedExecutor → Prop} {Q : PUnit → Machine → Prop} {call : Call}
    (hcall : st.call = call) (hwp : wp (call.exec host repository prims) Q E ⟨e, st.workspace⟩)
    (hok : ∀ s', Q ⟨⟩ s' → P s'.executor) (herror : ∀ message s', E (.error message) s' → P s'.executor)
    (hsame : P e) : P (step host repository prims e st) := by
  unfold wp at hwp
  unfold step
  rw [hcall]
  split at hwp <;> rename_i hexec
  · rw [hexec]
    exact hok _ hwp
  · rename_i stop s'
    rw [hexec]
    cases stop with
    | error message => exact herror message s' hwp
    | crash => exact hsame

theorem step_moves (e : BoundedExecutor) (st : Step) :
    Moves host repository prims e st (step host repository prims e st) :=
  step_of_wp rfl (wp_exec rfl) (fun _ h => h) (fun _ _ h => h) (.quiet (Quiet.refl e))

theorem step_recover {stored : Except String BoundedExecutor} {request : ExecutorResumeRequest}
    {contract : AgentTaskContract} {sealKey : ExecutorSealKey} (e : BoundedExecutor)
    (hcall : st.call = .recover stored request contract sealKey) : step host repository prims e st = e ∨
      ∃ x, stored = .ok x ∧ step host repository prims e st = { x with sealKey := some sealKey } := by
  refine step_of_wp (P := fun e' => e' = e ∨ ∃ x, stored = .ok x ∧ e' = { x with sealKey := some sealKey })
    hcall wp_recover (fun _ h => ?_) (fun _ _ h => ?_) (.inl rfl)
  · exact .inr h
  · exact .inl h

theorem step_rollback (e : BoundedExecutor) (hcall : st.call = .rollback) :
    step host repository prims e st = e ∨ (step host repository prims e st).state.isEnded = true := by
  refine step_of_wp (P := fun e' => e' = e ∨ e'.state.isEnded = true) hcall wp_rollback
    (fun _ h => h.imp id Ends.ended) (fun _ s' h => ?_) (.inl rfl)
  rcases h with hcrash | h
  · cases hcrash
  · exact h.imp id Ends.ended

end Axiomc.Executor
