import Axiomc.Executor.Steps

/-!
# The bounded executor: how a task is resolved

What must have happened, in which order, before an executor is `Resolved`, for every sequence of calls.

* `Proposed`, `Written`, `Verified`, `Delivered`: a proposal was validated, then written, then verified,
  then delivered, with no rollback in between;
* `Fresh`: a recovery is given a state that an earlier call left, after which no terminal state was reached;
* `History`: what the stage of an executor says about the calls so far;
* `resolved_after_protocol`: with fresh recoveries a resolved executor has gone through all of this, and no
  call leads out of a terminal state;
* `replayed_state_resolves`: an older state, recovered after a rejection or a rollback, is resolved.
-/

namespace Axiomc.Executor

open Foundation Workspace List

variable (host : Host) (repository : Repository) (prims : Primitives)

/-! ### Histories -/

/-- Every rollback among the calls `more`, made after `steps`, was refused. -/
def NoRollback (start : BoundedExecutor) (steps more : List Step) : Prop :=
  ∀ before st later, more = before ++ st :: later → st.call = .rollback →
    run host repository prims start (steps ++ before ++ [st]) =
      run host repository prims start (steps ++ before)

/-- A proposal for an allowed file was validated. -/
def Proposed (start : BoundedExecutor) (steps : List Step) (p : ReplaceTextProposal) : Prop :=
  ∃ before st more path current find replacement, steps = before ++ st :: more ∧
    st.call = .proposeReplace path current find replacement ∧
    Validates host (run host repository prims start before) path current find replacement p ∧
    NoRollback host repository prims start (before ++ [st]) more

/-- A validated proposal was written through a transaction, the one that the executor is bound to. -/
def Written (start : BoundedExecutor) (steps : List Step) (p : ReplaceTextProposal)
    (transactionId policyDigest : Text) : Prop :=
  ∃ before st more, steps = before ++ st :: more ∧ Proposed host repository prims start before p ∧
    st.call = .applyProposal ∧ Writes host repository p st.workspace ∧
    boundElsewhere (run host repository prims start before) st.workspace.state = false ∧
    st.workspace.state.transactionId = transactionId ∧ st.workspace.state.policyDigest = policyDigest ∧
    NoRollback host repository prims start (before ++ [st]) more

/-- A written proposal was verified. -/
def Verified (start : BoundedExecutor) (steps : List Step) (p : ReplaceTextProposal)
    (transactionId policyDigest : Text) (verdict : VerificationVerdict) : Prop :=
  ∃ before st more, steps = before ++ st :: more ∧
    Written host repository prims start before p transactionId policyDigest ∧
    st.call = .submitVerification verdict ∧ Passes host repository p verdict ∧
    NoRollback host repository prims start (before ++ [st]) more

/-- A verified proposal was delivered. -/
def Delivered (start : BoundedExecutor) (steps : List Step) : Prop :=
  ∃ before st more p transactionId policyDigest verdict evidence provider now,
    steps = before ++ st :: more ∧
    Verified host repository prims start before p transactionId policyDigest verdict ∧
    st.call = .submitDelivery evidence provider now ∧
    Delivers prims p.candidateDigest transactionId policyDigest verdict evidence provider now

/-- Each recovery is given a state that a call of this run left, and no state since then was terminal. -/
def Fresh (start : BoundedExecutor) (steps : List Step) : Prop :=
  ∀ before st after stored request contract sealKey, steps = before ++ st :: after →
    st.call = .recover (.ok stored) request contract sealKey →
    ∃ earlier later, before = earlier ++ later ∧
      stored = { run host repository prims start earlier with sealKey := none } ∧
      ∀ some_ rest, later = some_ ++ rest → some_ ≠ [] →
        (run host repository prims start (earlier ++ some_)).state.isTerminal = false

variable {host repository prims} {start e e' : BoundedExecutor} {steps more : List Step} {st : Step}
  {p : ReplaceTextProposal} {transactionId policyDigest : Text} {verdict : VerificationVerdict}

theorem run_concat : run host repository prims start (steps ++ [st]) =
    step host repository prims (run host repository prims start steps) st := by
  simp [run]

theorem Fresh.init (h : Fresh host repository prims start (steps ++ more)) :
    Fresh host repository prims start steps := by
  intro before st after stored request contract sealKey heq hcall
  exact h before st (after ++ more) stored request contract sealKey (by rw [heq]; simp) hcall

/-! ### Extending a history -/

theorem NoRollback.append {more₂ : List Step} (h : NoRollback host repository prims start steps more)
    (h₂ : NoRollback host repository prims start (steps ++ more) more₂) :
    NoRollback host repository prims start steps (more ++ more₂) := by
  intro before st later heq hcall
  rcases append_eq_append_iff.1 heq with ⟨rest, hbefore, hmore⟩ | ⟨rest, hmore, hrest⟩
  · rw [hbefore, ← append_assoc]
    exact h₂ rest st later hmore hcall
  · cases rest with
    | nil =>
      obtain rfl : more = before := by simpa using hmore
      simpa using h₂ [] st later (by simpa using hrest.symm) hcall
    | cons first rest =>
      obtain ⟨rfl, -⟩ := cons.inj hrest
      exact h before st rest hmore hcall

variable {state : ExecutionState} {contract : AgentTaskContract} {sealKey : ExecutorSealKey}

theorem isEnded_of_isTerminal (h : state.isTerminal = false) : state.isEnded = false := by
  cases state <;> first | rfl | cases h

/-- A rollback that did not end the work was refused. -/
theorem noRollback_of_states (h : ∀ some_ rest, more = some_ ++ rest → some_ ≠ [] →
      (run host repository prims start (steps ++ some_)).state.isEnded = false) :
    NoRollback host repository prims start steps more := by
  intro before st later heq hcall
  have hstate := h (before ++ [st]) later (by rw [heq]; simp) (by simp)
  rw [← append_assoc, run_concat] at hstate
  rw [run_concat]
  rcases step_rollback _ hcall with hsame | hended
  · exact hsame
  · rw [hstate] at hended
    cases hended

theorem noRollback_single (h : (run host repository prims start (steps ++ [st])).state.isEnded = false) :
    NoRollback host repository prims start steps [st] := by
  refine noRollback_of_states fun some_ rest heq hne => ?_
  cases some_ with
  | nil => exact absurd rfl hne
  | cons first some_ =>
    obtain ⟨rfl, htail⟩ := cons.inj heq
    obtain ⟨rfl, -⟩ := append_eq_nil_iff.1 htail.symm
    exact h

theorem noRollback_of_call (h : st.call ≠ .rollback) :
    NoRollback host repository prims start steps [st] := by
  intro before st' later heq hcall
  cases before with
  | nil =>
    obtain ⟨rfl, -⟩ := cons.inj heq
    exact absurd hcall h
  | cons first before =>
    obtain ⟨-, htail⟩ := cons.inj heq
    simp at htail

section

variable (hmore : NoRollback host repository prims start steps more)
include hmore

theorem Proposed.extend (h : Proposed host repository prims start steps p) :
    Proposed host repository prims start (steps ++ more) p := by
  obtain ⟨before, st, between, path, current, find, replacement, rfl, hcall, hvalid, hgap⟩ := h
  refine ⟨before, st, between ++ more, path, current, find, replacement, by simp, hcall, hvalid, ?_⟩
  exact hgap.append (by simpa using hmore)

theorem Written.extend (h : Written host repository prims start steps p transactionId policyDigest) :
    Written host repository prims start (steps ++ more) p transactionId policyDigest := by
  obtain ⟨before, st, between, rfl, hproposed, hcall, hwrites, hbound, hid, hpolicy, hgap⟩ := h
  refine ⟨before, st, between ++ more, by simp, hproposed, hcall, hwrites, hbound, hid, hpolicy, ?_⟩
  exact hgap.append (by simpa using hmore)

theorem Verified.extend
    (h : Verified host repository prims start steps p transactionId policyDigest verdict) :
    Verified host repository prims start (steps ++ more) p transactionId policyDigest verdict := by
  obtain ⟨before, st, between, rfl, hwritten, hcall, hpasses, hgap⟩ := h
  refine ⟨before, st, between ++ more, by simp, hwritten, hcall, hpasses, ?_⟩
  exact hgap.append (by simpa using hmore)

end

theorem Delivered.extend (h : Delivered host repository prims start steps) :
    Delivered host repository prims start (steps ++ more) := by
  obtain ⟨before, st, between, p, transactionId, policyDigest, verdict, evidence, provider, now, rfl,
    hverified, hcall, hdelivers⟩ := h
  exact ⟨before, st, between ++ more, p, transactionId, policyDigest, verdict, evidence, provider, now,
    by simp, hverified, hcall, hdelivers⟩

/-! ### The invariant -/

/-- The state, or the one that an interruption hides. -/
def stage (e : BoundedExecutor) : ExecutionState :=
  if e.state = .interrupted then e.interruptedFrom.getD .interrupted else e.state

variable (host repository prims) in
/-- What the stage of an executor says about the calls so far. -/
structure History (start : BoundedExecutor) (steps : List Step) (e : BoundedExecutor) : Prop where
  hidden : e.state = .interrupted → (stage e).isTerminal = false
  planned : stage e = .planned → ∀ p, e.proposal = some p →
    e.candidateDigest = some p.candidateDigest ∧ Proposed host repository prims start steps p
  edited : stage e = .edited → ∃ p transactionId policyDigest, e.proposal = some p ∧
    e.candidateDigest = some p.candidateDigest ∧ e.transactionId = some transactionId ∧
    e.policyDigest = some policyDigest ∧
    Written host repository prims start steps p transactionId policyDigest
  verified : stage e = .verificationPassed → ∃ p verdict binding,
    e.candidateDigest = some p.candidateDigest ∧ e.verification = some verdict ∧
    e.candidateBinding = some binding ∧
    Verified host repository prims start steps p binding.transactionId binding.policyDigest verdict
  resolved : e.state = .resolved → Delivered host repository prims start steps

theorem History.extend (h : History host repository prims start steps e)
    (hmore : NoRollback host repository prims start steps more) :
    History host repository prims start (steps ++ more) e where
  hidden := h.hidden
  planned := by
    intro hstage p hp
    obtain ⟨hcandidate, hproposed⟩ := h.planned hstage p hp
    exact ⟨hcandidate, hproposed.extend hmore⟩
  edited := by
    intro hstage
    obtain ⟨p, transactionId, policyDigest, hp, hcandidate, hid, hpolicy, hwritten⟩ := h.edited hstage
    exact ⟨p, transactionId, policyDigest, hp, hcandidate, hid, hpolicy, hwritten.extend hmore⟩
  verified := by
    intro hstage
    obtain ⟨p, verdict, binding, hcandidate, hverdict, hbinding, hverified⟩ := h.verified hstage
    exact ⟨p, verdict, binding, hcandidate, hverdict, hbinding, hverified.extend hmore⟩
  resolved := fun hstate => (h.resolved hstate).extend

theorem History.of_quiet (h : History host repository prims start steps e) (hquiet : Quiet e e') :
    History host repository prims start steps e' := by
  obtain ⟨_, _, _, _, _, rfl⟩ := hquiet
  exact ⟨h.hidden, h.planned, h.edited, h.verified, h.resolved⟩

/-- A state that says nothing about the calls before. -/
theorem History.of_stage (hinterrupted : e.state ≠ .interrupted) (hplanned : e.state ≠ .planned)
    (hedited : e.state ≠ .edited) (hverified : e.state ≠ .verificationPassed)
    (hresolved : e.state ≠ .resolved) : History host repository prims start steps e := by
  have hstage : stage e = e.state := if_neg hinterrupted
  refine ⟨fun h => absurd h hinterrupted, ?_, ?_, ?_, fun h => absurd h hresolved⟩
  · intro h
    rw [hstage] at h
    exact absurd h hplanned
  · intro h
    rw [hstage] at h
    exact absurd h hedited
  · intro h
    rw [hstage] at h
    exact absurd h hverified

theorem History.of_ended (h : e.state.isEnded = true) : History host repository prims start steps e := by
  refine .of_stage ?_ ?_ ?_ ?_ ?_ <;> intro hstate <;> rw [hstate] at h <;> cases h

theorem noRollback_nil : NoRollback host repository prims start steps [] := by
  intro before st later heq
  simp at heq

/-- A proposal that was just validated. -/
theorem History.of_proposed {path : Text} {current : Bytes} {find replacement : Text}
    (hcall : st.call = .proposeReplace path current find replacement)
    (hvalid : Validates host (run host repository prims start steps) path current find replacement p)
    (hstate : e.state = .planned) (hproposal : e.proposal = some p)
    (hcandidate : e.candidateDigest = some p.candidateDigest) :
    History host repository prims start (steps ++ [st]) e := by
  have hstage : stage e = .planned := by simp [stage, hstate]
  refine ⟨by simp [hstate], ?_, by simp [hstage], by simp [hstage], by simp [hstate]⟩
  intro _ q hq
  obtain rfl : p = q := Option.some.inj (hproposal.symm.trans hq)
  exact ⟨hcandidate, steps, st, [], path, current, find, replacement, rfl, hcall, hvalid, noRollback_nil⟩

/-- One call, recoveries apart, keeps the invariant. -/
theorem History.next (h : History host repository prims start steps (run host repository prims start steps))
    (hrecover : ∀ stored request contract sealKey,
      st.call ≠ .recover (.ok stored) request contract sealKey) :
    History host repository prims start (steps ++ [st])
      (run host repository prims start (steps ++ [st])) := by
  have hmoves : Moves host repository prims (run host repository prims start steps) st
      (run host repository prims start (steps ++ [st])) := by
    rw [run_concat]
    exact step_moves _ _
  generalize hbefore : run host repository prims start steps = e at h hmoves
  generalize hafter : run host repository prims start (steps ++ [st]) = e' at hmoves ⊢
  have hgap : e'.state.isEnded = false → NoRollback host repository prims start steps [st] := by
    intro hended
    exact noRollback_single (by rw [hafter]; exact hended)
  have hlater : ∀ {f}, Quiet f e' → f.state.isEnded = false → History host repository prims start steps f →
      History host repository prims start (steps ++ [st]) e' := by
    intro f hquiet hended hf
    refine (hf.of_quiet hquiet).extend (hgap ?_)
    obtain ⟨_, _, _, _, _, rfl⟩ := hquiet
    exact hended
  cases hmoves with
  | quiet hquiet =>
    by_cases hended : e'.state.isEnded = true
    · exact .of_ended hended
    · exact (h.of_quiet hquiet).extend (hgap (by simpa using hended))
  | ends hends => exact .of_ended hends.ended
  | @proposed path current find replacement p _ hcall hstate hvalid hquiet =>
    refine History.of_quiet ?_ hquiet
    rw [← hbefore] at hvalid
    by_cases hdry : e.dryRun = true
    · exact .of_stage (by simp [hdry]) (by simp [hdry]) (by simp [hdry]) (by simp [hdry])
        (by simp [hdry])
    · exact .of_proposed hcall hvalid (by simp [hdry, hstate]) rfl rfl
  | bound hstate hquiet =>
    have hstage : stage e = .planned := by simp [stage, hstate]
    refine hlater hquiet (congrArg ExecutionState.isEnded hstate) ?_
    exact ⟨h.hidden, h.planned, fun hs => absurd (hstage.symm.trans hs) (by simp),
      fun hs => absurd (hstage.symm.trans hs) (by simp), h.resolved⟩
  | @applied p _ hcall hstate hdry hproposal hbound hwrites hquiet =>
    have hstage : stage e = .planned := by simp [stage, hstate]
    obtain ⟨hcandidate, hproposed⟩ := h.planned hstage p hproposal
    refine History.of_quiet ⟨by simp, by simp [stage], fun _ => ?_, by simp [stage], by simp⟩ hquiet
    rw [← hbefore] at hbound
    exact ⟨p, _, _, hproposal, hcandidate, rfl, rfl, steps, st, [], rfl, hproposed, hcall, hwrites, hbound,
      rfl, rfl, noRollback_nil⟩
  | refuted hstate hquiet =>
    exact History.of_quiet (.of_stage (by simp) (by simp) (by simp) (by simp) (by simp)) hquiet
  | @verified verdict p transactionId policyDigest _ hcall hstate hproposal hid hpolicy hpasses hquiet =>
    have hstage : stage e = .edited := by simp [stage, hstate]
    obtain ⟨q, _, _, hq, hcandidate, hid', hpolicy', hwritten⟩ := h.edited hstage
    obtain rfl : p = q := Option.some.inj (hproposal.symm.trans hq)
    cases hid.symm.trans hid'
    cases hpolicy.symm.trans hpolicy'
    refine History.of_quiet ⟨by simp, by simp [stage], by simp [stage], fun _ => ?_, by simp⟩ hquiet
    exact ⟨p, verdict, _, hcandidate, rfl, rfl, steps, st, [], rfl, hwritten, hcall, hpasses,
      noRollback_nil⟩
  | @delivered evidence provider now candidate verdict binding _ hcall hstate hcandidate hverdict hbinding
      hdelivers hquiet =>
    have hstage : stage e = .verificationPassed := by simp [stage, hstate]
    obtain ⟨p, _, _, hcandidate', hverdict', hbinding', hverified⟩ := h.verified hstage
    cases hcandidate.symm.trans hcandidate'
    cases hverdict.symm.trans hverdict'
    cases hbinding.symm.trans hbinding'
    refine History.of_quiet ⟨by simp, by simp [stage], by simp [stage], by simp [stage], fun _ => ?_⟩ hquiet
    exact ⟨steps, st, [], p, _, _, verdict, evidence, provider, now, rfl, hverified, hcall, hdelivers⟩
  | interrupted hlive hrunning hquiet =>
    have hstage : stage e = stage { e with interruptedFrom := some e.state, state := .interrupted } := by
      simp [stage, hrunning]
    refine hlater hquiet rfl ⟨fun _ => ?_, fun hs => h.planned (hstage.trans hs),
      fun hs => h.edited (hstage.trans hs), fun hs => h.verified (hstage.trans hs), by simp⟩
    simpa [stage] using hlive
  | @resumed restored _ hstate hfrom hquiet =>
    have hstage : stage e = restored := by simp [stage, hstate, hfrom]
    have hlive : restored.isTerminal = false := by
      rw [← hstage]
      exact h.hidden hstate
    have hstage' : stage { e with interruptedFrom := none, state := restored } = restored := by
      by_cases hr : restored = .interrupted
      · simp [stage, hr]
      · simp [stage, hr]
    have hsame := hstage.trans hstage'.symm
    refine hlater hquiet (isEnded_of_isTerminal hlive) ⟨fun _ => ?_,
      fun hs => h.planned (hsame.trans hs), fun hs => h.edited (hsame.trans hs),
      fun hs => h.verified (hsame.trans hs), fun hs => absurd hs (ne_resolved_of_not_terminal hlive)⟩
    rw [hstage']
    exact hlive
  | recovered hcall => exact absurd hcall (hrecover _ _ _ _)

/-- The executor after a recovery is the one before, or as it was at an earlier point of the run from which
no terminal state was reached. -/
theorem Fresh.recovered {stored : BoundedExecutor} {request : ExecutorResumeRequest}
    (hfresh : Fresh host repository prims start (steps ++ [st]))
    (hcall : st.call = .recover (.ok stored) request contract sealKey) :
    run host repository prims start (steps ++ [st]) = run host repository prims start steps ∨
      ∃ earlier later, steps = earlier ++ later ∧ run host repository prims start (steps ++ [st]) =
          { run host repository prims start earlier with sealKey := some sealKey } ∧
        ∀ some_ rest, later = some_ ++ rest → some_ ≠ [] →
          (run host repository prims start (earlier ++ some_)).state.isTerminal = false := by
  rcases step_recover (run host repository prims start steps) hcall with hsame | ⟨x, hx, hstep⟩
  · exact .inl (by rw [run_concat, hsame])
  · cases hx
    obtain ⟨earlier, later, heq, hstored, hlive⟩ :=
      hfresh steps st [] stored request contract sealKey rfl hcall
    refine .inr ⟨earlier, later, heq, ?_, hlive⟩
    rw [run_concat, hstep, hstored]

/-- Every state that is reached has the history of its stage. -/
theorem Fresh.history (hstart : History host repository prims start [] start)
    (hfresh : Fresh host repository prims start steps) : ∀ before later, steps = before ++ later →
      History host repository prims start before (run host repository prims start before) := by
  induction steps using reverseRecOn with
  | nil =>
    intro before later heq
    obtain ⟨rfl, -⟩ := append_eq_nil_iff.1 heq.symm
    exact hstart
  | append_singleton steps st ih =>
    have ih := ih hfresh.init
    intro before later heq
    rcases eq_nil_or_concat later with rfl | ⟨later, last, rfl⟩
    · obtain rfl : steps ++ [st] = before := by simpa using heq
      have hlast := ih steps [] (by simp)
      by_cases hrecover : ∃ stored request contract sealKey,
          st.call = .recover (.ok stored) request contract sealKey
      · obtain ⟨stored, request, contract, sealKey, hcall⟩ := hrecover
        have hgap : NoRollback host repository prims start steps [st] :=
          noRollback_of_call (by rw [hcall]; simp)
        rcases hfresh.recovered hcall with hsame | ⟨earlier, later, rfl, hrun, hlive⟩
        · rw [hsame]
          exact hlast.extend hgap
        · have hearlier := ih earlier later rfl
          have hextended := hearlier.extend ((noRollback_of_states fun some_ rest hsplit hne =>
            isEnded_of_isTerminal (hlive some_ rest hsplit hne)).append hgap)
          rw [← append_assoc] at hextended
          rw [hrun]
          exact ⟨hextended.hidden, hextended.planned, hextended.edited, hextended.verified,
            hextended.resolved⟩
      · push Not at hrecover
        exact hlast.next hrecover
    · rw [concat_eq_append, ← append_assoc] at heq
      exact ih before later (append_inj' heq rfl).1

/-! ### Terminal states -/

theorem isEnded_of_terminal (hterminal : state.isTerminal = true)
    (hunresolved : state ≠ .resolved) : state.isEnded = true := by
  cases state <;> simp_all [ExecutionState.isTerminal, ExecutionState.isEnded]

/-- A call on an executor in a terminal state leaves it there, or replaces one end by another. -/
theorem Moves.of_terminal (h : Moves host repository prims e st e') (hterminal : e.state.isTerminal = true)
    (hrecover : ∀ stored request contract sealKey,
      st.call ≠ .recover (.ok stored) request contract sealKey) :
    e'.state = e.state ∨ (e.state.isEnded = true ∧ e'.state.isEnded = true) := by
  have hnot : ∀ state, e.state = state → state.isTerminal = false → False := by
    intro state hstate hlive
    rw [hstate, hlive] at hterminal
    cases hterminal
  cases h with
  | quiet hquiet =>
    obtain ⟨_, _, _, _, _, rfl⟩ := hquiet
    exact .inl rfl
  | ends hends =>
    exact .inr ⟨isEnded_of_terminal hterminal hends.unresolved, hends.ended⟩
  | proposed _ hstate | bound hstate | applied _ hstate | refuted hstate | verified _ hstate
  | delivered _ hstate | resumed hstate => exact absurd rfl (hnot _ hstate)
  | interrupted hlive => exact absurd hlive (hnot _ rfl)
  | recovered hcall => exact absurd hcall (hrecover _ _ _ _)

theorem Fresh.terminal_next (hfresh : Fresh host repository prims start (steps ++ [st]))
    (hterminal : (run host repository prims start steps).state.isTerminal = true) :
    (run host repository prims start (steps ++ [st])).state =
        (run host repository prims start steps).state ∨
      ((run host repository prims start steps).state.isEnded = true ∧
        (run host repository prims start (steps ++ [st])).state.isEnded = true) := by
  by_cases hrecover : ∃ stored request contract sealKey,
      st.call = .recover (.ok stored) request contract sealKey
  · obtain ⟨stored, request, contract, sealKey, hcall⟩ := hrecover
    rcases hfresh.recovered hcall with hsame | ⟨earlier, later, rfl, hrun, hlive⟩
    · exact .inl (by rw [hsame])
    · -- The state is terminal, so that the stored executor is the present one.
      by_cases hnil : later = []
      · subst hnil
        rw [append_nil] at hrun ⊢
        exact .inl (by rw [hrun])
      · rw [hlive later [] (by simp) hnil] at hterminal
        cases hterminal
  · push Not at hrecover
    rw [run_concat]
    exact (step_moves _ _).of_terminal hterminal hrecover

theorem isTerminal_of_isEnded (h : state.isEnded = true) : state.isTerminal = true := by
  cases state <;> first | rfl | cases h

/-- What is true of terminal states only, and passes from an ended state to the next, stays true. -/
theorem Fresh.stays {P : ExecutionState → Prop} (hterminal : ∀ s, P s → s.isTerminal = true)
    (hended : ∀ s s', P s → s.isEnded = true → s'.isEnded = true → P s') {later : List Step}
    (hfresh : Fresh host repository prims start (steps ++ later))
    (h : P (run host repository prims start steps).state) :
    P (run host repository prims start (steps ++ later)).state := by
  induction later using reverseRecOn with
  | nil => simpa using h
  | append_singleton later st ih =>
    rw [← append_assoc] at hfresh ⊢
    have hbefore := ih hfresh.init
    rcases hfresh.terminal_next (hterminal _ hbefore) with hsame | ⟨hlast, hafter⟩
    · rw [hsame]
      exact hbefore
    · exact hended _ _ hbefore hlast hafter

/-! ### Resolution -/

section

variable {baseSha : Text} {dryRun : Bool} {retryPolicy : RetryPolicy}
  (h : newWithRetryPolicy host prims contract baseSha dryRun retryPolicy sealKey = .ok start)
include h

theorem newWithRetryPolicy_eq_ok :
    ∃ mac, start = { (planned host contract baseSha dryRun retryPolicy sealKey).withEvent host prims
      "planned".toList contract.id with sealMac := mac } := by
  obtain ⟨-, h⟩ := check_bind_eq_ok.1 h
  obtain ⟨-, h⟩ := check_bind_eq_ok.1 h
  obtain ⟨-, h⟩ := check_bind_eq_ok.1 h
  obtain ⟨-, h⟩ := check_bind_eq_ok.1 h
  obtain ⟨-, h⟩ := check_bind_eq_ok.1 h
  obtain ⟨mac, -, h⟩ := bind_eq_ok.1 h
  exact ⟨mac, (Except.ok.inj h).symm⟩

theorem history_of_new : History host repository prims start [] start := by
  obtain ⟨mac, rfl⟩ := newWithRetryPolicy_eq_ok h
  refine ⟨fun hstate => ?_, fun _ p hp => ?_, fun hstage => ?_, fun hstage => ?_, fun hstate => ?_⟩
  · cases hstate
  · cases hp
  · cases hstage
  · cases hstage
  · cases hstate

end

/-- With fresh recoveries, a resolved executor has had a proposal validated, written through its
transaction, verified and delivered, in this order and with no rollback in between; and no call leads from a
terminal state to one from which it could be resolved. -/
theorem resolved_after_protocol {contract : AgentTaskContract} {baseSha : Text} {dryRun : Bool}
    {retryPolicy : RetryPolicy} {sealKey : ExecutorSealKey}
    (hnew : newWithRetryPolicy host prims contract baseSha dryRun retryPolicy sealKey = .ok start)
    (hfresh : Fresh host repository prims start steps) :
    ((run host repository prims start steps).state = .resolved →
      Delivered host repository prims start steps) ∧
    ∀ before later, steps = before ++ later →
      ((run host repository prims start before).state.isEnded = true →
        (run host repository prims start steps).state.isEnded = true) ∧
      ((run host repository prims start before).state = .resolved →
        (run host repository prims start steps).state = .resolved) := by
  constructor
  · exact (hfresh.history (history_of_new hnew) steps [] (by simp)).resolved
  · intro before later heq
    subst heq
    refine ⟨Fresh.stays (fun _ => isTerminal_of_isEnded)
      (fun _ _ _ _ hended => hended) hfresh, Fresh.stays (P := (· = .resolved)) ?_ ?_ hfresh⟩
    · rintro _ rfl
      rfl
    · rintro _ _ rfl hended
      cases hended

/-! ### A replayed state -/

def oldText : Bytes := encodeUtf8 "old".toList

def newText : Bytes := encodeUtf8 "new".toList

def editBase : Text := replicate 40 'c'

def editHead : Text := replicate 40 'd'

/-- Every commit has the new text in the one file that it changes. -/
def editRepository : Repository where
  revParse sha := .ok sha
  isAncestor _ _ := .ok true
  diffNames _ _ := .ok [encodeUtf8 "f".toList]
  showBlob _ _ := .ok newText
  stateBytes _ := []

def stateByte : ExecutionState → UInt8
  | .planned => 0
  | .dryRun => 1
  | .edited => 2
  | .evidenceFailed => 3
  | .verificationPassed => 4
  | .resolved => 5
  | .rolledBack => 6
  | .rejected => 7
  | .escalated => 8
  | .interrupted => 9

def editPrims : Primitives where
  eventBytes sequence _ _ state _ _ _ := [UInt8.ofNat sequence, stateByte state]
  executorBytes e := [UInt8.ofNat e.events.length, stateByte e.state]
  evidenceBytes evidence := encodeUtf8 evidence.candidateDigest
  contractBytes _ := [1]
  hmacHex key payload := hexDigits (key ++ payload)

def editContract : AgentTaskContract where
  schemaVersion := taskSchemaVersion
  contractDigest := paddedDigest [1]
  id := "t".toList
  sourceRevision := editBase
  allowedFiles := ["f".toList]
  requiredCapabilities := []
  budgets := ⟨10, 10, 2, 10⟩
  deliveryPermissions := ⟨false, false, false, false, false, false, false, false, false, false⟩
  repairAllowedFiles := none

def editKey : ExecutorSealKey := ⟨"k".toList, [7]⟩

def editPolicy : WorkspacePolicy := ⟨["f".toList], ["f".toList], [], false, true⟩

def editIdentity : Identity where
  baseSha := editBase
  transactionId := "txn".toList
  taskContractDigest := editContract.contractDigest
  policyDigest := paddedDigest [2]
  ownerEpoch := "e".toList

def editWorkspace : Session :=
  (exec (createForTask plainHost editIdentity editPolicy)
    ⟨ContentTree.empty.put ["f".toList] (.file (.raw oldText) 0o644 1), editBase, 0, [], default⟩).2

def editStart : BoundedExecutor :=
  match newWithRetryPolicy plainHost editPrims editContract editBase false ⟨[]⟩ editKey with
  | .ok e => e
  | .error _ => planned plainHost editContract editBase false ⟨[]⟩ editKey

theorem editStart_new :
    newWithRetryPolicy plainHost editPrims editContract editBase false ⟨[]⟩ editKey = .ok editStart := rfl

abbrev editRun (steps : List Step) : BoundedExecutor :=
  run plainHost editRepository editPrims editStart steps

def bindStep : Step := ⟨.bindTransaction, editWorkspace⟩

/-- A proposal for a file that is not allowed. -/
def strayProposal : Step :=
  ⟨.proposeReplace "g".toList oldText "old".toList "new".toList, editWorkspace⟩

def editProposal : Step := ⟨.proposeReplace "f".toList oldText "old".toList "new".toList, editWorkspace⟩

def applyStep : Step := ⟨.applyProposal, editWorkspace⟩

/-- The transaction after the proposal was applied. -/
def appliedWorkspace : Session :=
  (exec (applyProposal plainHost editRepository editPrims)
    ⟨editRun [bindStep, editProposal], editWorkspace⟩).2.workspace

def editVerdict : VerificationVerdict :=
  ⟨verdictSchemaVersion, paddedDigest [3], .passed, editBase, editHead, [], [], [], []⟩

def verifyStep : Step := ⟨.submitVerification editVerdict, appliedWorkspace⟩

def editEvidenceKey : DeliveryEvidenceKey := ⟨"p".toList, [9]⟩

def editEvidence : SignedDeliveryEvidence :=
  { providerId := "p".toList
    candidateDigest := paddedDigest newText
    planDigest := paddedDigest [3]
    deliveredHeadSha := editHead
    transactionId := "txn".toList
    policyDigest := paddedDigest [2]
    fetchedAtEpochSeconds := 5
    requiredChecksPassed := true
    reviewSatisfied := true
    conversationsResolved := true
    evidenceMac := hmacDigest editPrims [9] deliveryEvidenceDomain (encodeUtf8 (paddedDigest newText)) }

def deliverStep (workspace : Session) : Step :=
  ⟨.submitDelivery editEvidence ⟨editEvidenceKey, 100⟩ 6, workspace⟩

/-- The request that goes with a stored executor. -/
def resumeRequest (e : BoundedExecutor) : ExecutorResumeRequest where
  schemaVersion := resumeSchemaVersion
  executorStateMac := e.sealMac
  sealKeyId := e.sealKeyId
  taskContractDigest := e.taskContractDigest
  transactionId := "txn".toList
  transactionDigest := paddedDigest [2]
  candidateDigest := e.candidateDigest
  remainingBudgets := ⟨10, 10, 2, 10⟩
  nextEventSequence := e.events.length

/-- A recovery from the stored form of an executor, with the transaction as it was created. -/
def replayStep (e : BoundedExecutor) : Step :=
  ⟨.recover (.ok { e with sealKey := none }) (resumeRequest e) editContract editKey, editWorkspace⟩

/-- The calls that resolve the task. -/
def editSteps : List Step :=
  [bindStep, editProposal, applyStep, verifyStep, deliverStep appliedWorkspace]

/-- An executor that was rejected, or rolled back, is replaced by its older form and then resolved. -/
theorem replayed_state_resolves :
    newWithRetryPolicy plainHost editPrims editContract editBase false ⟨[]⟩ editKey = .ok editStart ∧
    (editRun [bindStep, strayProposal]).state = .rejected ∧
    (editRun ([bindStep, strayProposal, replayStep (editRun [bindStep])] ++ editSteps.drop 1)).state =
      .resolved ∧
    (editRun (editSteps.take 4 ++ [⟨.rollback, appliedWorkspace⟩])).state = .rolledBack ∧
    (editRun (editSteps.take 4 ++ [⟨.rollback, appliedWorkspace⟩, replayStep (editRun (editSteps.take 4)),
      deliverStep editWorkspace])).state = .resolved := by
  refine ⟨editStart_new, ?_, ?_, ?_, ?_⟩
  · decide +kernel
  · decide +kernel
  · decide +kernel
  · decide +kernel

/-- A run stays fresh if what is recovered is the state that the last call left. -/
theorem Fresh.concat (h : Fresh host repository prims start steps)
    (hst : ∀ stored request contract sealKey, st.call = .recover (.ok stored) request contract sealKey →
      stored = { run host repository prims start steps with sealKey := none }) :
    Fresh host repository prims start (steps ++ [st]) := by
  intro before st' after stored request contract sealKey heq hcall
  rcases eq_nil_or_concat after with rfl | ⟨after, last, rfl⟩
  · obtain ⟨rfl, hlast⟩ := append_inj' heq rfl
    cases hlast
    refine ⟨steps, [], by simp, hst _ _ _ _ hcall, fun some_ rest hnil hne => ?_⟩
    exact absurd (append_eq_nil_iff.1 hnil.symm).1 hne
  · rw [concat_eq_append, ← cons_append, ← append_assoc] at heq
    exact h before st' after _ _ _ _ (append_inj' heq rfl).1 hcall

/-- The task is resolved by an executor that was stored after the proposal and recovered. -/
def resumedSteps : List Step :=
  [bindStep, editProposal, replayStep (editRun [bindStep, editProposal]), applyStep, verifyStep,
    deliverStep appliedWorkspace]

theorem resumedSteps_delivered : (editRun resumedSteps).state = .resolved ∧
      Delivered plainHost editRepository editPrims editStart resumedSteps := by
  have hresolved : (editRun resumedSteps).state = .resolved := by decide +kernel
  have hstart : Fresh plainHost editRepository editPrims editStart [] := by
    intro before st after _ _ _ _ heq
    simp at heq
  have hproposed : Fresh plainHost editRepository editPrims editStart [bindStep, editProposal] :=
    (hstart.concat fun _ _ _ _ h => by cases h).concat fun _ _ _ _ h => by cases h
  have hrecovered : Fresh plainHost editRepository editPrims editStart
      ([bindStep, editProposal] ++ [replayStep (editRun [bindStep, editProposal])]) :=
    hproposed.concat fun _ _ _ _ h => by
      cases h
      rfl
  have hfresh : Fresh plainHost editRepository editPrims editStart resumedSteps :=
    ((hrecovered.concat fun _ _ _ _ h => by cases h).concat fun _ _ _ _ h => by cases h).concat
      fun _ _ _ _ h => by cases h
  exact ⟨hresolved, (resolved_after_protocol editStart_new hfresh).1 hresolved⟩

end Axiomc.Executor
