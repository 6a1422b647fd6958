import Axiomc.Workspace.Transaction

/-!
# Transactions: steps on the disk

What the steps of a transaction can do to the disk, however they end.

* `Free`, `Same`: worktrees that agree except for the names that belong to `git` and to the transaction;
* `wp_observe`, `wp_change`: the rules of a step that looks and of one that changes;
* `Patient`: relations between sessions that a look keeps, for which the constructs of a call have rules;
* `wp_writeState`: a write of the state file leaves the old state or the new one;
* `wp_perform`: an effect leaves the state file alone, and ends with the effect applied;
* `Effect.apply_congr`, `Effect.apply_frame`: what an effect depends on, and what it changes.
-/

namespace Axiomc.Workspace

open Foundation List

variable {host : Host} {s : Session} {α : Type} {Q : α → Session → Prop} {E : Stop → Session → Prop}

/-! ### Rules -/

variable {β : Type} {f : α → Io β} {g : PUnit → Io β} {R : β → Session → Prop}

theorem wp_lift {r : Except String α} (hok : ∀ a, r = .ok a → wp (f a) R E s)
    (herror : ∀ message, r = .error message → E (.error message) s) : wp (lift r >>= f) R E s := by
  cases r with
  | ok a => exact hok a rfl
  | error message => exact herror message rfl

theorem wp_stopIf {c : Prop} [Decidable c] {message : String} (hpass : ¬ c → wp (g ⟨⟩) R E s)
    (hstop : c → E (.error message) s) : wp (stopIf c message >>= g) R E s := by
  rw [stopIf]
  by_cases h : c
  · rw [if_pos h]
    exact hstop h
  · rw [if_neg h]
    exact hpass h

theorem wp_onlyIf {c : Bool} {m : Io PUnit} {Q : PUnit → Session → Prop} (hrun : c = true → wp m Q E s)
    (hskip : c = false → Q ⟨⟩ s) : wp (onlyIf c m) Q E s := by
  cases c with
  | true => exact hrun rfl
  | false => exact hskip rfl

theorem wp_getState {f : TransactionState → Io β} (h : wp (f s.state) R E s) :
    wp (getState >>= f) R E s := (wp_bind _ _).2 h

theorem wp_modifyState {change : TransactionState → TransactionState}
    (h : wp (g ⟨⟩) R E { s with state := change s.state }) : wp (modifyState change >>= g) R E s :=
  (wp_bind _ _).2 h

theorem wp_stateFileExists {f : Bool → Io β} (h : wp (f (s.tree.node [stateFile]).isSome) R E s) :
    wp (stateFileExists >>= f) R E s := (wp_bind _ _).2 h

/-- A call may stop with the session as it is, up to the verdicts to come. -/
abbrev MayStop (E : Stop → Session → Prop) (s : Session) : Prop :=
  ∀ stop faults, E stop { s with faults := faults }

/-- A verdict changes nothing but the verdicts to come. -/
theorem wp_nextVerdict {Q : Verdict → Session → Prop}
    (h : ∀ verdict faults, Q verdict { s with faults := faults }) : wp nextVerdict Q E s := by
  unfold nextVerdict
  rw [wp_bind, wp_get]
  split
  · exact h _ s.faults
  · exact h _ _

variable {describe : String} {tree : Worktree} {nonce : Nat}

theorem wp_observe {look : Session → Except String α}
    (hok : ∀ a faults, look s = .ok a → wp (f a) R E { s with faults := faults })
    (hstop : MayStop E s) : wp (observe describe look >>= f) R E s := by
  rw [wp_bind, observe, wp_bind, wp_get, wp_bind]
  refine wp_nextVerdict fun verdict faults => ?_
  cases verdict with
  | done =>
    cases hlook : look s with
    | ok a => exact hok a faults hlook
    | error message => exact hstop _ faults
  | fail stage cause | crash stage => exact hstop _ faults

/-- What a step can leave if it stops: the worktree as it was, or one of its stages. -/
def Left (tree : Worktree) (stages : List (Stage Content)) (after : Worktree) : Prop :=
  after = tree ∨ ∃ stage ∈ stages, after = stage.crashed ∨ after = stage.failed

theorem getLastD_map_mem {β : Type} {f : Stage Content → β} {stages : List (Stage Content)} {d : β} :
    (stages.map f).getLastD d = d ∨ ∃ stage ∈ stages, (stages.map f).getLastD d = f stage := by
  by_cases h : stages = []
  · exact .inl (by rw [h]; rfl)
  · right
    refine ⟨stages.getLast h, getLast_mem h, ?_⟩
    rw [getLastD_eq_getLast?, getLast?_map, getLast?_eq_getLast_of_ne_nil h]
    rfl

theorem left_getLastD (tree : Worktree) (stages : List (Stage Content)) :
    Left tree stages ((stages.map (·.crashed)).getLastD tree) := by
  rcases @getLastD_map_mem _ (·.crashed) stages tree with hsame | ⟨stage, hmem, hlast⟩
  · exact .inl hsame
  · exact .inr ⟨stage, hmem, .inl hlast⟩

theorem left_take (tree : Worktree) (stages : List (Stage Content)) (stage : Nat) :
    Left tree stages (((stages.take stage).map (·.failed)).getLastD tree) := by
  rcases @getLastD_map_mem _ (·.failed) (stages.take stage) tree with hsame | ⟨st, hst, hlast⟩
  · exact .inl hsame
  · exact .inr ⟨st, mem_of_mem_take hst, .inr hlast⟩

theorem left_take_crashed (tree : Worktree) (stages : List (Stage Content)) (stage : Nat) :
    Left tree stages (((stages.take stage).map (·.crashed)).getLastD tree) := by
  rcases left_getLastD tree (stages.take stage) with hsame | ⟨st, hst, hlast⟩
  · exact .inl hsame
  · exact .inr ⟨st, mem_of_mem_take hst, hlast⟩

theorem wp_change {stages : List (Stage Content)} {Q : PUnit → Session → Prop}
    (hok : ∀ faults, Q ⟨⟩ { s with faults := faults, tree := (stages.map (·.crashed)).getLastD s.tree })
    (hstop : ∀ stop faults tree, Left s.tree stages tree →
      E stop { s with faults := faults, tree := tree }) : wp (change describe stages) Q E s := by
  unfold change
  rw [wp_bind]
  refine wp_nextVerdict fun verdict faults => ?_
  cases verdict with
  | done => exact hok faults
  | fail stage cause => exact hstop _ faults _ (left_take s.tree stages stage)
  | crash stage => exact hstop _ faults _ (left_take_crashed s.tree stages stage)

/-! ### Relations between sessions -/

/-- A relation between sessions that a look at the disk keeps. -/
class Patient (R : Session → Session → Prop) : Prop extends Std.Refl R, IsTrans Session R where
  faults : ∀ s faults, R s { s with faults := faults }

section Within

variable {R : Session → Session → Prop}

theorem within_modifyState {f : TransactionState → TransactionState}
    (h : ∀ s : Session, R s { s with state := f s.state }) : Within R (modifyState f) := h

variable [Patient R]

theorem within_lift (r : Except String α) : Within R (lift r) := by
  intro s
  cases r <;> exact refl_of R s

theorem within_stopIf (c : Prop) [Decidable c] (message : String) : Within R (stopIf c message) := by
  intro s
  unfold stopIf
  split <;> exact refl_of R s

theorem within_onlyIf (c : Bool) {m : Io PUnit} (h : Within R m) : Within R (onlyIf c m) :=
  fun s => wp_onlyIf (fun _ => h s) fun _ => refl_of R s

theorem within_getState : Within R getState := fun s => refl_of R s

theorem within_get : Within R (get : Io Session) := fun s => refl_of R s

theorem within_observe (describe : String) (look : Session → Except String α) :
    Within R (observe describe look) := by
  intro s
  rw [← bind_pure (observe describe look)]
  exact wp_observe (fun _ faults _ => Patient.faults s faults) fun _ faults => Patient.faults s faults

end Within

/-! ### Reserved names -/

/-- The beginning of the names of the temporary files that become the state file. -/
def stateTemp : Text := ['.'] ++ stateFile ++ ".axiom-tmp-".toList

/-- The names in the root of a worktree that belong to `git` and to the transaction. -/
def isReserved (name : Text) : Bool :=
  name == gitEntry || name == stateFile || name == leaseFile || stateTemp.isPrefixOf name

def Free (name : Text) : Prop := isReserved name = false

/-- Worktrees with the same files, reserved names apart. -/
abbrev Same : Worktree → Worktree → Prop := Agree Free

theorem not_free_stateFile : ¬ Begins Free [stateFile] := by
  intro h
  obtain ⟨name, rest, heq, hfree⟩ := h
  cases heq
  exact absurd hfree (by unfold Free; decide)

theorem not_free_tempName (nonce : Nat) : ¬ Free (tempName stateFile nonce) := by
  intro h
  have hleads : stateTemp.isPrefixOf (tempName stateFile nonce) = true := by
    rw [ isPrefixOf_iff_prefix]
    exact prefix_append _ _
  simp [Free, isReserved, hleads] at h

/-- A temporary file is not the state file. -/
theorem tempName_ne_stateFile (leaf : Text) (nonce : Nat) : tempName leaf nonce ≠ stateFile := by
  intro h
  have hmem : 'p' ∈ tempName leaf nonce := by
    refine mem_append_left _ (mem_append_right _ ?_)
    decide
  rw [h] at hmem
  revert hmem
  decide

/-! ### The state file -/

/-- The state in the state file. -/
def Durable (tree : Worktree) (state : TransactionState) : Prop :=
  ∃ mode, tree.node [stateFile] = some (.file (.journal state) mode 1)

theorem relativeComponents_stateFile : relativeComponents stateFile = .ok [stateFile] := by decide

theorem Durable.unique {a b : TransactionState} (ha : Durable tree a)
    (hb : Durable tree b) : a = b := by
  obtain ⟨mode, ha⟩ := ha
  obtain ⟨mode', hb⟩ := hb
  rw [ha] at hb
  cases hb
  rfl

theorem Durable.of_node {tree' : Worktree} {state : TransactionState} (h : Durable tree state)
    (hnode : tree'.node [stateFile] = tree.node [stateFile]) : Durable tree' state :=
  h.imp fun _ hmode => hnode.trans hmode

theorem Durable.isSome {state : TransactionState} (h : Durable tree state) :
    (tree.node [stateFile]).isSome = true := by
  obtain ⟨mode, hnode⟩ := h
  rw [hnode]
  rfl

theorem Durable.readState {state : TransactionState} (h : Durable tree state) :
    readState host tree = .ok state := by
  obtain ⟨mode, hnode⟩ := h
  have hentry : anchoredEntry tree [stateFile] = .ok (some (.file (.journal state) mode 1)) := by
    simp [anchoredEntry, openAnchoredParent, anchoredEntryStat, hnode, bind, Except.bind]
  simp [Workspace.readState, secureRead, relativeComponents_stateFile, hentry, readNode, decodeState,
    bind, Except.bind]

/-- What a write of the state file can leave. -/
structure Rewritten (before after : Worktree) (next : TransactionState) : Prop where
  same : Same before after
  state : after.node [stateFile] = before.node [stateFile] ∨ Durable after next

theorem Rewritten.refl (tree : Worktree) (next : TransactionState) : Rewritten tree tree next :=
  ⟨Agree.refl tree, .inl rfl⟩

/-- The stages of a write of the state file. -/
theorem secureWrite_stateFile {next : TransactionState} {stages : List (Stage Content)}
    (h : secureWrite tree (tempName stateFile nonce) stateFile (.journal next) = .ok stages) :
    ∃ temporary published, stages = [⟨temporary, tree⟩, .same published] ∧
      Rewritten tree temporary next ∧ Rewritten tree published next ∧ Durable published next := by
  obtain ⟨names, hnames, h⟩ := bind_eq_ok.1 h
  obtain rfl : [stateFile] = names := Except.ok.inj (relativeComponents_stateFile.symm.trans hnames)
  obtain ⟨⟨made, published⟩, hpublish, h⟩ := bind_eq_ok.1 h
  obtain ⟨hmade, -, -, hnodes⟩ := publish_spec relativeComponents_stateFile hpublish
  cases hmade
  have hfresh : ∀ q, q ≠ [tempName stateFile nonce] →
      (tree.put [tempName stateFile nonce] (.file (.journal next) 0o600 1)).node q = tree.node q :=
    fun q hq => ContentTree.node_put_of_ne hq
  dsimp only at h
  split at h
  · cases h
  · cases h
    refine ⟨_, published, rfl, ⟨?_, ?_⟩, ⟨?_, ?_⟩, ?_⟩
    · intro name rest hfree
      refine (hfresh _ ?_).symm
      intro heq
      cases heq
      exact not_free_tempName nonce hfree
    · left
      refine hfresh _ ?_
      intro heq
      exact tempName_ne_stateFile stateFile nonce (cons.inj heq).1.symm
    · intro name rest hfree
      rw [hnodes, if_neg]
      · rfl
      · intro heq
        exact not_free_stateFile ⟨name, rest, heq.symm, hfree⟩
    · right
      exact ⟨0o600, by rw [hnodes, if_pos rfl]⟩
    · exact ⟨0o600, by rw [hnodes, if_pos rfl]⟩

/-- A write of the state file leaves the old state or the new one, and the new one if it succeeds. -/
theorem wp_writeState {next : TransactionState} {Q : PUnit → Session → Prop}
    (hok : ∀ s', s'.state = s.state → s'.head = s.head → Rewritten s.tree s'.tree next →
      Durable s'.tree next → Q ⟨⟩ s')
    (hstop : ∀ stop s', s'.state = s.state → s'.head = s.head → Rewritten s.tree s'.tree next →
      E stop s') : wp (writeFile stateFile (.journal next)) Q E s := by
  unfold writeFile
  have hleaf : ((pathNames stateFile).getLast?).getD [] = stateFile := by decide
  refine wp_lift (fun stages hstages => ?_) fun message _ => hstop _ _ rfl rfl (Rewritten.refl _ _)
  obtain ⟨temporary, published, rfl, htemporary, hpublished, hdurable⟩ :=
    secureWrite_stateFile hstages
  refine wp_change (fun faults => hok _ rfl rfl hpublished hdurable) ?_
  intro stop faults tree hleft
  refine hstop _ _ rfl rfl ?_
  rcases hleft with rfl | ⟨stage, hstage, htree⟩
  · exact Rewritten.refl _ _
  · rcases mem_pair.1 hstage with rfl | rfl
    · rcases htree with rfl | rfl
      · exact htemporary
      · exact Rewritten.refl _ _
    · rcases htree with rfl | rfl <;> exact hpublished

/-! ### Effects -/

variable {e : Effect} {t r t' : Worktree} {q : List Text}

/-- The paths of an effect begin with names that are not reserved. -/
def Effect.IsFree (e : Effect) : Prop := ∀ path ∈ e.changedPaths, Begins Free (pathNames path)

/-- An effect on a worktree can be repeated on one with the same files, with the same result. -/
theorem Effect.apply_congr (hsame : Same t r) (hfree : e.IsFree) (h : e.apply t = .ok t') :
    ∃ r', e.apply r = .ok r' ∧ Same t' r' := by
  have begins : ∀ {path names}, path ∈ e.changedPaths → relativeComponents path = .ok names →
      Begins Free names := by
    intro path names hpath hnames
    rw [relativeComponents_eq hnames]
    exact hfree path hpath
  cases e with
  | write path bytes =>
    obtain ⟨⟨made, published⟩, hpublish, rfl⟩ := map_eq_ok.1 h
    obtain ⟨names, hnames, -⟩ := bind_eq_ok.1 hpublish
    obtain ⟨made', r', hr', hagree⟩ :=
      publish_congr hsame hnames (begins (by simp [changedPaths]) hnames) hpublish
    exact ⟨r', map_eq_ok.2 ⟨_, hr', rfl⟩, hagree⟩
  | delete path =>
    obtain ⟨names, hnames, -⟩ := bind_eq_ok.1 h
    exact secureDelete_congr hsame hnames (begins (by simp [changedPaths]) hnames) h
  | rename source target =>
    obtain ⟨sourceNames, hsource, -⟩ := bind_eq_ok.1 h
    obtain ⟨targetNames, htarget⟩ := relativeComponents_of_rename h
    exact secureRename_congr hsource htarget hsame (begins (by simp [changedPaths]) hsource)
      (begins (by simp [changedPaths]) htarget) h
  | chmod path mode =>
    obtain ⟨names, hnames, -⟩ := bind_eq_ok.1 h
    exact secureChmod_congr hnames hsame (begins (by simp [changedPaths]) hnames) h

/-- Whether an effect makes directories. -/
def Effect.Creates (tree : Worktree) : Effect → Except String Bool
  | .write path _ => createsMissingAncestors tree path
  | _ => .ok false

/-- How an effect can change an entry: on the way to one of its paths, and not from or to a link.  If it
makes no directories, then only at its paths. -/
structure Effect.Changes (e : Effect) (tree : Worktree) (q : List Text)
    (old new : Option (FileNode Content)) : Prop where
  onTheWay : ∃ path ∈ e.changedPaths, q ≠ [] ∧ q <+: pathNames path
  old_link : ∀ target, old ≠ some (.link target)
  new_link : ∀ target, new ≠ some (.link target)
  exact_ : e.Creates tree = .ok false → ∃ path ∈ e.changedPaths, q = pathNames path

theorem Effect.changes_at {path : Text} {old new : Option (FileNode Content)}
    (hpath : path ∈ e.changedPaths) (hnames : relativeComponents path = .ok (pathNames path))
    (hold : ∀ target, old ≠ some (.link target)) (hnew : ∀ target, new ≠ some (.link target)) :
    e.Changes t (pathNames path) old new where
  onTheWay := ⟨path, hpath, relativeComponents_ne_nil hnames, prefix_rfl⟩
  old_link := hold
  new_link := hnew
  exact_ := fun _ => ⟨path, hpath, rfl⟩

theorem Effect.apply_frame (h : e.apply t = .ok t') (q : List Text) :
    t'.node q = t.node q ∨ e.Changes t q (t.node q) (t'.node q) := by
  cases e with
  | write path bytes =>
    obtain ⟨⟨made, published⟩, hpublish, rfl⟩ := map_eq_ok.1 h
    obtain ⟨names, hnames, -⟩ := bind_eq_ok.1 hpublish
    obtain ⟨hmade, hlink, -, hnodes⟩ := publish_spec hnames hpublish
    obtain rfl := relativeComponents_eq hnames
    by_cases hq : q = pathNames path
    · right
      subst hq
      rw [hnodes]
      exact changes_at (by simp [changedPaths]) hnames hlink (by simp)
    · rw [hnodes, if_neg hq]
      rcases (openAnchoredParent_spec isDirectory_nil hmade).2 q with ⟨hsame, -⟩ | ⟨hnone, hway, hdir⟩
      · exact .inl hsame
      · right
        rw [hnone, hdir]
        refine ⟨⟨path, by simp [changedPaths], hway.2.1, ?_⟩, by simp, by simp, fun hcreates => ?_⟩
        · exact hway.2.2.trans ( dropLast_prefix _)
        · -- If nothing is missing, nothing is made.
          have hmissing : anyMissing t [] (pathNames path).dropLast = .ok false := by
            rw [Creates, createsMissingAncestors, hnames] at hcreates
            exact hcreates
          rw [openAnchoredParent_of_anyMissing hmissing hmade] at hdir
          exact absurd (hnone.symm.trans hdir) (by simp)
  | delete path =>
    obtain ⟨names, hnames, -⟩ := bind_eq_ok.1 h
    obtain ⟨hlink, hnodes⟩ := secureDelete_spec hnames h
    obtain rfl := relativeComponents_eq hnames
    by_cases hq : q = pathNames path
    · right
      subst hq
      rw [hnodes]
      exact changes_at (by simp [changedPaths]) hnames hlink (by simp)
    · exact .inl (by rw [hnodes, if_neg hq])
  | rename source target =>
    obtain ⟨sourceNames, hsource, -⟩ := bind_eq_ok.1 h
    obtain ⟨targetNames, htarget⟩ := relativeComponents_of_rename h
    obtain ⟨content, mode, links, hfile, hlink, hnodes⟩ := secureRename_spec hsource htarget h
    obtain rfl := relativeComponents_eq hsource
    obtain rfl := relativeComponents_eq htarget
    by_cases hq : q = pathNames target
    · right
      subst hq
      rw [hnodes]
      exact changes_at (by simp [changedPaths]) htarget hlink (by simp)
    · by_cases hq' : q = pathNames source
      · right
        subst hq'
        rw [hnodes, hfile]
        exact changes_at (by simp [changedPaths]) hsource (by simp) (by simp)
      · exact .inl (by rw [hnodes, if_neg hq, if_neg hq'])
  | chmod path mode =>
    obtain ⟨names, hnames, -⟩ := bind_eq_ok.1 h
    obtain ⟨n, hn, hlink, hnodes⟩ := secureChmod_spec hnames h
    obtain rfl := relativeComponents_eq hnames
    by_cases hq : q = pathNames path
    · right
      subst hq
      rw [hnodes, hn]
      cases n with
      | link target => cases hlink
      | file content mode' links | directory mode' =>
        exact changes_at (by simp [changedPaths]) hnames (by simp) (by simp [withMode])
    · exact .inl (by rw [hnodes, if_neg hq])

/-- An effect leaves reserved names alone. -/
theorem Effect.apply_reserved (hfree : e.IsFree) (h : e.apply t = .ok t') (hq : ¬ Begins Free q) :
    t'.node q = t.node q := by
  rcases apply_frame h q with hsame | hchanges
  · exact hsame
  · obtain ⟨path, hpath, hne, hleads⟩ := hchanges.onTheWay
    exact absurd ((hfree path hpath).of_leads hne hleads) hq

/-- The stages of a write of a file leave the state file alone. -/
theorem secureWrite_stages {path leaf : Text} {content : Content}
    {stages : List (Stage Content)} (hfree : Begins Free (pathNames path))
    (h : secureWrite t (tempName leaf nonce) path content = .ok stages) :
    ∃ made published, publish t path content = .ok (made, published) ∧
      (stages.map (·.crashed)).getLastD t = published ∧
      ∀ after, Left t stages after → after.node [stateFile] = t.node [stateFile] := by
  obtain ⟨names, hnames, h⟩ := bind_eq_ok.1 h
  obtain ⟨⟨made, published⟩, hpublish, h⟩ := bind_eq_ok.1 h
  obtain ⟨hmade, -, -, hnodes⟩ := publish_spec hnames hpublish
  obtain rfl := relativeComponents_eq hnames
  have hoff : ¬ OnTheWay [] (pathNames path).dropLast [stateFile] :=
    fun hway => not_free_stateFile (hway.begins hfree)
  have hmem := node_of_mem_made hmade hoff
  have hparent : (made.getLastD t).node [stateFile] = t.node [stateFile] := by
    by_cases hnil : made = []
    · rw [hnil]
      rfl
    · rw [getLastD_eq_getLast?, getLast?_eq_getLast_of_ne_nil hnil]
      exact hmem _ (getLast_mem hnil)
  have hpublished : published.node [stateFile] = t.node [stateFile] := by
    rw [hnodes, if_neg, hparent]
    intro heq
    exact not_free_stateFile (heq ▸ hfree)
  dsimp only at h
  split at h
  · cases h
  · cases h
    refine ⟨made, published, hpublish, by simp [Stage.same], ?_⟩
    have htemp : ((made.getLastD t).put ((pathNames path).dropLast ++ [tempName leaf nonce])
        (.file content 0o600 1)).node [stateFile] = t.node [stateFile] := by
      rw [ContentTree.node_put_of_ne, hparent]
      intro heq
      cases hlast : (pathNames path).dropLast with
      | nil =>
        rw [hlast] at heq
        exact tempName_ne_stateFile leaf nonce (cons.inj heq).1.symm
      | cons name rest =>
        rw [hlast] at heq
        simp at heq
    intro after hleft
    rcases hleft with rfl | ⟨stage, hstage, hafter⟩
    · rfl
    · rcases mem_append.1 hstage with hstage | hstage
      · obtain ⟨m, hm, rfl⟩ := mem_map.1 hstage
        rcases hafter with rfl | rfl <;> exact hmem _ hm
      · rcases mem_pair.1 hstage with rfl | rfl
        · rcases hafter with rfl | rfl
          · exact htemp
          · exact hparent
        · rcases hafter with rfl | rfl <;> exact hpublished

/-- An effect leaves the state file alone however it ends, and ends with the effect applied. -/
theorem wp_perform {Q : PUnit → Session → Prop} (hfree : e.IsFree)
    (hok : ∀ s', s'.state = s.state → s'.tree.node [stateFile] = s.tree.node [stateFile] →
      e.apply s.tree = .ok s'.tree → Q ⟨⟩ s')
    (hstop : ∀ stop s', s'.state = s.state → s'.tree.node [stateFile] = s.tree.node [stateFile] →
      E stop s') : wp e.perform Q E s := by
  -- The effects other than a write happen at once.
  have hatOnce : wp (do
      let session ← get
      let tree ← lift (e.apply session.tree)
      change "" [.same tree]) Q E s := by
    refine wp_lift (fun tree htree => ?_) fun message _ => hstop _ _ rfl rfl
    have hstate : tree.node [stateFile] = s.tree.node [stateFile] :=
      Effect.apply_reserved hfree htree not_free_stateFile
    refine wp_change (fun faults => hok _ rfl hstate htree) ?_
    intro stop faults after hleft
    refine hstop _ _ rfl ?_
    rcases hleft with rfl | ⟨stage, hstage, hafter⟩
    · rfl
    · obtain rfl := mem_singleton.1 hstage
      rcases hafter with rfl | rfl <;> exact hstate
  cases e with
  | write path bytes =>
    unfold Effect.perform writeFile
    refine wp_lift (fun stages hstages => ?_) fun message _ => hstop _ _ rfl rfl
    obtain ⟨made, published, hpublish, hlast, hleft⟩ :=
      secureWrite_stages (hfree path (by simp [Effect.changedPaths])) hstages
    have happly : Effect.apply s.tree (.write path bytes) = .ok published :=
      map_eq_ok.2 ⟨_, hpublish, rfl⟩
    refine wp_change (fun faults => ?_) fun stop faults after hafter =>
      hstop _ _ rfl (hleft after hafter)
    refine hok _ rfl ?_ ?_
    · show ((stages.map (·.crashed)).getLastD s.tree).node [stateFile] = _
      rw [hlast]
      exact Effect.apply_reserved hfree happly not_free_stateFile
    · show _ = Except.ok ((stages.map (·.crashed)).getLastD s.tree)
      rw [hlast]
      exact happly
  | _ => exact hatOnce

end Axiomc.Workspace
