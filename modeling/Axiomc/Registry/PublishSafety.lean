import Axiomc.Foundation.Checks
import Axiomc.Registry.Publish

/-!
# Where a publication can stop

What is in the package directory at every point where the transaction can end, by an error of its own, by
a call that fails or by a crash.

* `look_safe`, `change_safe`, `removeAnchoredReleaseDir_safe`: one rule for each kind of call;
* `Visible`, `Aside`: where a complete release can be;
* `Stopped`: where an attempt may stop.  `Ends` says which ends of steps go with it, so that one proof
  covers attempts with faults, which may leave the release aside, and attempts without;
* `restoreInterrupted_safe`, `clearPending_safe`, `removePrevious_safe`, `fillPending_safe`,
  `replaceVersion_safe`: the parts, each from the state the one before it leaves;
* `publishReleaseTransaction_safe`: an attempt.
-/

namespace Axiomc.Registry

open Foundation Option List

/-! ### Names -/

section

variable (version : Text)

@[simp] theorem previousText_ne : previousText version ≠ version := by
  intro h
  have hlength := congrArg length h
  simp only [previousText, length_append, length_singleton] at hlength
  omega

@[simp] theorem pendingText_ne : pendingText version ≠ version := by
  intro h
  have hlength := congrArg length h
  simp only [pendingText, length_append, length_singleton] at hlength
  omega

@[simp] theorem pendingText_ne_previousText : pendingText version ≠ previousText version := by
  intro h
  have hend : ".publish-pending".toList = ".previous".toList := append_cancel_left h
  exact absurd hend (by decide)

@[simp] theorem ne_previousText : version ≠ previousText version :=
  (previousText_ne version).symm

@[simp] theorem ne_pendingText : version ≠ pendingText version :=
  (pendingText_ne version).symm

@[simp] theorem previousText_ne_pendingText : previousText version ≠ pendingText version :=
  (pendingText_ne_previousText version).symm

end

/-- The names an attempt for a version uses. -/
def names (version : Text) : List Text := [version, previousText version, pendingText version]

/-! ### Calls -/

section Calls

variable {A : StepEnd → Prop} {I P Q : PackageDir → Prop} {host : Host} {describe : String → Diagnostic}
  {α : Type}

section

variable (hfault : ∀ d e, A e → e ≠ .done → P d → I d)
include hfault

/-- A call that happens at once or not at all; `f` says what becomes of its result. -/
theorem call_safe {β : Type} {act : PackageDir → Except String β}
    {f : PackageDir → β → α × PackageDir} {Q : α → PackageDir → Prop}
    (herror : ∀ d cause, P d → act d = .error cause → I d)
    (hok : ∀ d b, P d → act d = .ok b → Q (f d b).1 (f d b).2) :
    Safe A I P (orFail describe (diskStep (fun d => (act d).map (f d)) fun d _ => d)) Q := by
  refine Safe.orFail (Q := Attempted I Q) (Safe.diskStep ?_ ?_ ?_ ?_) fun _ _ h => h
  · intro d a d' hP hact
    obtain ⟨b, hb, heq⟩ := map_eq_ok.1 hact
    have hQ := hok d b hP hb
    rw [heq] at hQ
    exact hQ
  · intro d cause hP hact
    cases hresult : act d with
    | ok b =>
      rw [hresult] at hact
      cases hact
    | error cause => exact herror d cause hP hresult
  · exact fun d n cause hA hP => hfault d _ hA (by simp) hP
  · exact fun d n hA hP => hfault d _ hA (by simp) hP

theorem look_safe {act : PackageDir → Except String α}
    (herror : ∀ d cause, P d → act d = .error cause → I d) :
    Safe A I P (orFail describe (look act)) fun a d => P d ∧ act d = .ok a :=
  call_safe hfault herror fun _ _ hP hact => ⟨hP, hact⟩

theorem touch_safe : Safe A I P (orFail describe touch) fun _ => P :=
  (look_safe hfault fun _ _ _ h => by cases h).mono (fun _ h => h) fun _ _ h => h.1

theorem change_safe {act : PackageDir → Except String PackageDir}
    (herror : ∀ d cause, P d → act d = .error cause → I d) (hok : ∀ d d', P d → act d = .ok d' → Q d') :
    Safe A I P (orFail describe (change act)) fun _ => Q :=
  call_safe hfault herror hok

end

variable {message : String}

theorem stop_safe {Q : α → PackageDir → Prop} (h : ∀ d, P d → I d) : Safe A I P (stop message) Q :=
  Safe.throw _ h

variable {name : Text}

theorem cString_safe (h : '\x00' ∈ name → ∀ d, P d → I d) :
    Safe A I P (cString name message) fun _ d => P d ∧ '\x00' ∉ name := by
  unfold cString
  split
  next hmem => exact stop_safe (h hmem)
  next hmem => exact Safe.pure _ fun d hP => ⟨hP, hmem⟩

theorem onlyIf_safe {c : Bool} {m : Io PUnit} (htrue : c = true → Safe A I P m fun _ => Q)
    (hfalse : c = false → ∀ d, P d → Q d) : Safe A I P (onlyIf c m) fun _ => Q := by
  unfold onlyIf
  split
  next hc => exact htrue hc
  next hc => exact Safe.pure _ (hfalse (by simpa using hc))

/-! ### Removing a directory -/

theorem openDir_eq_ok {d : PackageDir} {content : List (Text × Leaf)} :
    openDir host name d = .ok content ↔ d.entry name = some (.directory content) := by
  unfold openDir
  split <;> simp_all

section

variable (hI : ∀ d, P d → I d) (hset : ∀ d content, P d → P (d.set name (some (.directory content))))
include hI hset

/-- A predicate that the content of one directory does not matter for is kept while it is emptied. -/
theorem removeEntry_safe {leaf : Text} : Safe A I P (removeEntry host name leaf) fun _ => P := by
  refine (look_safe (fun d _ _ _ => hI d) fun d _ h _ => hI d h).bind fun found => ?_
  cases found with
  | directory => exact stop_safe fun d h => hI d h.1
  | file bytes =>
    refine change_safe (fun d _ _ _ h => hI d h.1) (fun d _ h _ => hI d h.1) ?_
    rintro d d' ⟨hP, hleaf⟩ hact
    unfold unlink at hact
    simp only [bind, Except.bind] at hact
    split at hact
    · cases hact
    next content hcontent =>
      split at hact
      · cases hact
        exact hset d _ hP
      · cases hact
      · cases hact

/-- **Removal.**  Whatever stops it, only the one entry is different. -/
theorem removeAnchoredReleaseDir_safe (hnone : ∀ d, P d → Q (d.set name none)) :
    Safe A I P (removeAnchoredReleaseDir host name) fun _ => Q := by
  have hfault : ∀ d e, A e → e ≠ .done → P d → I d := fun d _ _ _ => hI d
  refine (look_safe hfault fun d _ h _ => hI d h).bind fun content => ?_
  refine Safe.bind ((touch_safe hfault).mono (fun d h => h.1) fun _ _ h => h) fun _ => ?_
  refine (touch_safe hfault).bind fun _ => ?_
  refine Safe.bind (Safe.forEach (fun _ => P) (fun _ leaf => removeEntry_safe hI hset) _ []) fun _ => ?_
  refine (touch_safe hfault).bind fun _ => ?_
  refine change_safe hfault (fun d _ h _ => hI d h) ?_
  intro d d' hP hact
  unfold removeDir at hact
  simp only [bind, Except.bind] at hact
  split at hact
  · cases hact
  · split at hact
    · cases hact
      exact hnone d hP
    · cases hact

end

/-! ### Opening -/

/-- The texts without which there is no release. -/
structure NulFree (package : Package) (version : Text) : Prop where
  namespaceName : '\x00' ∉ package.namespaceName
  name : '\x00' ∉ package.name
  version : '\x00' ∉ version

variable {package : Package}

theorem openSegment_safe {segment : Text}
    (hfault : ∀ d e, A e → e ≠ .done → P d → I d) (hnul : '\x00' ∈ segment → ∀ d, P d → I d) :
    Safe A I P (openSegment package segment) fun _ d => P d ∧ '\x00' ∉ segment := by
  have hfault' : ∀ d e, A e → e ≠ .done → (P d ∧ '\x00' ∉ segment) → I d :=
    fun d e hA he h => hfault d e hA he h.1
  exact (cString_safe hnul).bind fun _ => (touch_safe hfault').bind fun _ => touch_safe hfault'

theorem openRelease_safe {version : Text} (hfault : ∀ d e, A e → e ≠ .done → P d → I d)
    (hroot : ∀ d, P d → P { d with rootExists := true })
    (hnul : ¬ NulFree package version → ∀ d, P d → I d) :
    Safe A I P (openRelease package version) fun _ d => P d ∧ NulFree package version := by
  have hfound : Safe A I P (look fun d => .ok d.rootExists) fun _ => P := by
    refine Safe.diskStep ?_ ?_ (fun _ _ _ _ hP => hP) fun d _ hA hP => hfault d _ hA (by simp) hP
    · intro d _ d' hP hact
      cases hact
      exact hP
    · intro d _ hP hact
      cases hact
  have hcreate : ∀ c, Safe A I P (onlyIf c
      (orFail (fun cause => publishError (some package.registryRoot)
          ("failed to create registry root: " ++ cause))
        (change fun d => .ok { d with rootExists := true }))) fun _ => P := by
    intro c
    refine onlyIf_safe (fun _ => change_safe hfault (fun d _ _ h => by cases h) ?_) fun _ _ h => h
    intro d d' hP hact
    cases hact
    exact hroot d hP
  -- each text is checked before the next call
  have hparent : Safe A I P (openParent package) fun _ d =>
      P d ∧ '\x00' ∉ package.namespaceName ∧ '\x00' ∉ package.name := by
    refine hfound.bind fun found => (hcreate _).bind fun _ => (touch_safe hfault).bind fun _ => ?_
    refine Safe.bind (Q := fun _ d =>
      P d ∧ '\x00' ∉ package.namespaceName ∧ '\x00' ∉ package.name) ?_ fun _ => ?_
    · refine (openSegment_safe hfault fun h => hnul fun free => free.namespaceName h).bind fun _ => ?_
      refine (openSegment_safe (fun d e hA he h => hfault d e hA he h.1)
        fun h d hd => hnul (fun free => free.name h) d hd.1).bind fun _ => ?_
      exact Safe.pure _ fun d h => ⟨h.1.1, h.1.2, h.2⟩
    · exact touch_safe fun d e hA he h => hfault d e hA he h.1
  refine hparent.bind fun _ => ?_
  refine (cString_safe fun h d hd => hnul (fun free => free.version h) d hd.1).bind fun _ => ?_
  -- the other two names hold a NUL only if the version does
  have hhidden : ∀ d, ((P d ∧ '\x00' ∉ package.namespaceName ∧ '\x00' ∉ package.name) ∧
      '\x00' ∉ version) → P d ∧ NulFree package version :=
    fun d h => ⟨h.1.1, h.1.2.1, h.1.2.2, h.2⟩
  refine ((cString_safe (P := fun d => P d ∧ NulFree package version) ?_).mono hhidden
    fun _ _ h => h.1).bind fun _ => ((cString_safe ?_).mono (fun _ h => h) fun _ _ h => h.1)
  · intro h d hd
    simp [pendingText, hd.2.version] at h
  · intro h d hd
    simp [previousText, hd.2.version] at h

end Calls

/-! ### What is kept -/

/-- Nothing, or a directory. -/
def IsDir (node : Option Node) : Prop := ∀ found, node = some found → ∃ content, found = .directory content

theorem isDir_none : IsDir none := fun _ h => nomatch h

theorem isDir_directory (content : List (Text × Leaf)) : IsDir (some (.directory content)) :=
  fun _ h => ⟨content, (some.inj h).symm⟩

theorem isDir_complete (files : Option Files) : IsDir (files.map complete) := by
  cases files with
  | none => exact isDir_none
  | some files => exact isDir_directory _

/-- The two hidden entries are directories, if they are there. -/
structure Shape (version : Text) (d : PackageDir) : Prop where
  previous : IsDir (d.entry (previousText version))
  pending : IsDir (d.entry (pendingText version))

/-- The release is under its name.  Without a release nothing is kept aside either. -/
structure Visible (version : Text) (old : Option Files) (d : PackageDir) : Prop where
  release : d.entry version = old.map complete
  aside : old = none → d.entry (previousText version) = none

/-- The release is aside, where the next attempt looks for it. -/
structure Aside (version : Text) (old : Option Files) (d : PackageDir) : Prop where
  some : old.isSome
  missing : d.entry version = none
  release : d.entry (previousText version) = old.map complete

/-- Between attempts. -/
def Between (version : Text) (old : Option Files) (d : PackageDir) : Prop :=
  Shape version d ∧ (Visible version old d ∨ Aside version old d)

/-- Where an attempt may stop.  If the release has to be `visible` then it is not aside. -/
def Stopped (visible : Prop) (version : Text) (old : Option Files) (new : Files) (d : PackageDir) :
    Prop :=
  Shape version d ∧ (Visible version old d ∨ (¬ visible ∧ Aside version old d) ∨
    d.entry version = some (complete new))

/-- The ends of steps under which a release stays visible: success alone. -/
def Ends (visible : Prop) (e : StepEnd) : Prop := visible → e = .done

section Transaction

variable {visible : Prop} {host : Host} {package : Package} {version : Text} {old : Option Files}
  {new : Files} {d : PackageDir} {previousExists : Option Bool} {content : List (Text × Leaf)}

theorem Between.stopped (h : Between version old d) (hv : ¬ visible) :
    Stopped visible version old new d :=
  ⟨h.1, h.2.imp_right fun haside => .inl ⟨hv, haside⟩⟩

/-- Nothing but the three entries matters. -/
theorem Between.congr {d' : PackageDir} (h : Between version old d)
    (hsame : ∀ name ∈ names version, d'.entry name = d.entry name) : Between version old d' := by
  have hversion : d'.entry version = d.entry version := hsame _ (by simp [names])
  have hprevious : d'.entry (previousText version) = d.entry (previousText version) :=
    hsame _ (by simp [names])
  have hpending : d'.entry (pendingText version) = d.entry (pendingText version) :=
    hsame _ (by simp [names])
  refine ⟨⟨?_, ?_⟩, ?_⟩
  · rw [hprevious]
    exact h.1.previous
  · rw [hpending]
    exact h.1.pending
  · rcases h.2 with hvisible | haside
    · exact .inl ⟨hversion.trans hvisible.release, fun h => hprevious.trans (hvisible.aside h)⟩
    · exact .inr ⟨haside.some, hversion.trans haside.missing, hprevious.trans haside.release⟩

/-- The release is visible, and the two hidden entries are directories. -/
def Settled (version : Text) (old : Option Files) (d : PackageDir) : Prop :=
  Shape version d ∧ Visible version old d

theorem Settled.stopped (h : Settled version old d) : Stopped visible version old new d :=
  ⟨h.1, .inl h.2⟩

/-- A fault, where one is allowed, means that the release need not be visible. -/
theorem not_visible_of_fault {e : StepEnd} (h : Ends visible e) (he : e ≠ .done) : ¬ visible :=
  fun hv => he (h hv)

variable {node : Option Node}

theorem set_pending_settled (h : Settled version old d)
    (hnode : IsDir node) : Settled version old (d.set (pendingText version) node) := by
  refine ⟨⟨?_, ?_⟩, ?_, ?_⟩
  · simpa using h.1.previous
  · simpa using hnode
  · simpa using h.2.release
  · simpa using h.2.aside

/-! ### The parts -/

/-- The answers of the two looks at the beginning. -/
def Answers (version : Text) (finalExists previousExists : Option Bool) (d : PackageDir) : Prop :=
  (d.entry version).map Node.isDirectory = finalExists ∧
    (d.entry (previousText version)).map Node.isDirectory = previousExists

theorem rename_eq_ok_of_free {source target : Text} {node : Node}
    (hsource : d.entry source = some node) (htarget : d.entry target = none) :
    rename host source target d = .ok ((d.set source none).set target (some node)) := by
  unfold rename
  rw [hsource, htarget]

/-- **Recovery.**  After it the release is under its name, whatever state the last attempt left. -/
theorem restoreInterrupted_safe {finalExists : Option Bool} :
    Safe (Ends visible) (Stopped visible version old new)
      (fun d => Between version old d ∧ Answers version finalExists previousExists d)
      (restoreInterrupted host version finalExists previousExists)
      fun answer d => Settled version old d ∧ answer.1 = (old.map fun _ => true) ∧
        (d.entry (previousText version)).map Node.isDirectory = answer.2 := by
  have hfault : ∀ d e, Ends visible e → e ≠ .done →
      (Between version old d ∧ Answers version finalExists previousExists d) →
      Stopped visible version old new d :=
    fun d e he hne h => h.1.stopped (not_visible_of_fault he hne)
  unfold restoreInterrupted
  split
  next hinterrupted =>
    -- the release is aside: nothing is under its name, something is under the other
    have haside : ∀ d, (Between version old d ∧ Answers version finalExists previousExists d) →
        Shape version d ∧ Aside version old d := by
      rintro d ⟨⟨hshape, hvisible | haside⟩, hfinal, hprevious⟩
      · have hnone : d.entry version = none := by
          have := hinterrupted.1
          rw [← hfinal, isNone_iff_eq_none, map_eq_none_iff] at this
          exact this
        have hold : old = none := by
          have hrelease := hvisible.release
          rw [hnone] at hrelease
          exact map_eq_none_iff.mp hrelease.symm
        rw [hvisible.aside hold, hinterrupted.2] at hprevious
        cases hprevious
      · exact ⟨hshape, haside⟩
    have hrename : ∀ d, Shape version d ∧ Aside version old d →
        rename host (previousText version) version d =
          .ok ((d.set (previousText version) none).set version (old.map complete)) := by
      rintro d ⟨-, haside⟩
      obtain ⟨files, rfl⟩ := isSome_iff_exists.mp haside.some
      exact rename_eq_ok_of_free haside.release haside.missing
    refine Safe.bind (Q := fun _ d => Settled version old d ∧ old.isSome ∧
      d.entry (previousText version) = none) (change_safe hfault ?_ ?_) fun _ => ?_
    · intro d cause h hact
      rw [hrename d (haside d h)] at hact
      cases hact
    · intro d d' h hact
      have h' := haside d h
      rw [hrename d h'] at hact
      cases hact
      refine ⟨⟨⟨?_, ?_⟩, ?_, ?_⟩, h'.2.some, ?_⟩
      · simp [isDir_none]
      · simp [h'.1.pending]
      · simp
      · simp
      · simp
    · refine (touch_safe fun d e _ _ h => h.1.stopped).bind fun _ => Safe.pure _ ?_
      intro d h
      refine ⟨h.1, ?_, ?_⟩
      · obtain ⟨files, rfl⟩ := isSome_iff_exists.mp h.2.1
        rfl
      · rw [h.2.2]
        rfl
  next hsettled =>
    refine Safe.pure _ ?_
    rintro d ⟨⟨hshape, hkept⟩, hfinal, hprevious⟩
    have hvisible : Visible version old d := by
      refine hkept.resolve_right fun haside => hsettled ⟨?_, ?_⟩
      · rw [← hfinal, haside.missing]
        rfl
      · obtain ⟨files, rfl⟩ := isSome_iff_exists.mp haside.some
        rw [← hprevious, haside.release]
        rfl
    refine ⟨⟨hshape, hvisible⟩, ?_, hprevious⟩
    rw [← hfinal, hvisible.release]
    cases old <;> rfl

/-- The release is visible, and the second look was right. -/
def Looked (version : Text) (old : Option Files) (previousExists : Option Bool) (d : PackageDir) : Prop :=
  Settled version old d ∧ (d.entry (previousText version)).map Node.isDirectory = previousExists

theorem clearPending_safe :
    Safe (Ends visible) (Stopped visible version old new) (Looked version old previousExists)
      (clearPending host version)
      fun _ d => Looked version old previousExists d ∧ d.entry (pendingText version) = none := by
  refine (look_safe (fun d _ _ _ h => h.1.stopped) fun d _ h _ => h.1.stopped).bind fun answer => ?_
  have hset : ∀ d node, IsDir node → Looked version old previousExists d →
      Looked version old previousExists (d.set (pendingText version) node) :=
    fun d node hnode h => ⟨set_pending_settled h.1 hnode, by simpa using h.2⟩
  split
  · exact (removeAnchoredReleaseDir_safe (fun d h => h.1.stopped)
      (fun d content => hset d _ (isDir_directory content))
      fun d h => ⟨hset d none isDir_none h, by simp⟩).mono (fun d h => h.1) fun _ _ h => h
  · exact stop_safe fun d h => h.1.1.stopped
  · refine Safe.pure _ fun d h => ⟨h.1, ?_⟩
    have hanswer := Except.ok.inj h.2
    rwa [map_eq_none_iff] at hanswer

/-- Ready for the new files: the release is under its name and nothing is beside it. -/
structure Ready (version : Text) (old : Option Files) (d : PackageDir) : Prop where
  release : d.entry version = old.map complete
  previous : d.entry (previousText version) = none
  pending : d.entry (pendingText version) = none

theorem removePrevious_safe {request : Request}
    (hallowed : (old.isSome && !request.overwrite) = false) :
    Safe (Ends visible) (Stopped visible version old new)
      (fun d => Looked version old previousExists d ∧ d.entry (pendingText version) = none)
      (removePrevious host version request old.isSome previousExists) fun _ => Ready version old := by
  refine onlyIf_safe ?_ ?_
  · intro hremove
    simp only [Bool.and_eq_true] at hremove
    obtain ⟨⟨-, hsome⟩, -⟩ := hremove
    have hnone : old ≠ none := isSome_iff_ne_none.mp hsome
    refine (removeAnchoredReleaseDir_safe
      (P := fun d => Settled version old d ∧ d.entry (pendingText version) = none) ?_ ?_ ?_).mono
      (fun d h => ⟨h.1.1, h.2⟩) fun _ _ h => h
    · exact fun d h => h.1.stopped
    · -- with a release under its name, what is aside does not matter
      intro d content h
      refine ⟨⟨⟨?_, ?_⟩, ?_, fun h => absurd h hnone⟩, ?_⟩
      · simp [isDir_directory]
      · simp [h.1.1.pending]
      · simp [h.1.2.release]
      · simp [h.2]
    · intro d h
      refine ⟨?_, ?_, ?_⟩
      · simp [h.1.2.release]
      · simp
      · simp [h.2]
  · rintro hkeep d ⟨⟨hsettled, hprevious⟩, hpending⟩
    refine ⟨hsettled.2.release, ?_, hpending⟩
    cases old with
    | none => exact hsettled.2.aside rfl
    | some files =>
      -- a predecessor would have been removed, since the request may overwrite
      cases hentry : d.entry (previousText version) with
      | none => rfl
      | some node =>
        obtain ⟨content, rfl⟩ := hsettled.1.previous node hentry
        rw [hentry] at hprevious
        rw [← hprevious] at hkeep
        cases hover : request.overwrite with
        | false =>
          rw [hover] at hallowed
          cases hallowed
        | true =>
          rw [hover] at hkeep
          cases hkeep

/-- The files of `done` are written to the pending directory. -/
structure Filling (version : Text) (old : Option Files) (content : List (Text × Leaf))
    (d : PackageDir) : Prop where
  release : d.entry version = old.map complete
  previous : d.entry (previousText version) = none
  pending : d.entry (pendingText version) = some (.directory content)

theorem stopped_of_release (hrelease : d.entry version = old.map complete)
    (hprevious : d.entry (previousText version) = none) (hpending : IsDir (d.entry (pendingText version))) :
    Stopped visible version old new d :=
  ⟨⟨hprevious.symm ▸ isDir_none, hpending⟩, .inl ⟨hrelease, fun _ => hprevious⟩⟩

theorem Filling.stopped (h : Filling version old content d) : Stopped visible version old new d :=
  stopped_of_release h.release h.previous (h.pending.symm ▸ isDir_directory content)

theorem filling_set (hrelease : d.entry version = old.map complete)
    (hprevious : d.entry (previousText version) = none) :
    Filling version old content (d.set (pendingText version) (some (.directory content))) := by
  refine ⟨?_, ?_, ?_⟩
  · simpa using hrelease
  · simpa using hprevious
  · simp

theorem Filling.set {content' : List (Text × Leaf)} (h : Filling version old content d) :
    Filling version old content' (d.set (pendingText version) (some (.directory content'))) :=
  filling_set h.release h.previous

theorem putBytes_filling {leaf : Text} (bytes : Bytes)
    (h : Filling version old (content ++ [(leaf, .file [])]) d) (hfresh : content.lookup leaf = none) :
    Filling version old (content ++ [(leaf, .file bytes)])
      (putBytes (pendingText version) leaf bytes d) := by
  have hothers : (content.map fun entry => if entry.1 = leaf then (leaf, Leaf.file bytes) else entry) =
      content := by
    refine (map_congr_left ?_).trans (map_id content)
    intro entry hentry
    rw [if_neg]
    · rfl
    · intro heq
      have := lookup_eq_none_iff.mp hfresh entry hentry
      simp [heq] at this
  unfold putBytes
  rw [h.pending]
  dsimp only
  rw [map_append, hothers]
  simpa using h.set

/-- The leaves of files. -/
def leaves (files : Files) : List (Text × Leaf) := files.map fun file => (file.1.val, .file file.2)

theorem persistFile_safe (done : Files) (file : FileName × Bytes) :
    Safe (Ends visible) (Stopped visible version old new) (Filling version old (leaves done))
      (persistFile host version file) fun _ => Filling version old (leaves (done ++ [file])) := by
  refine (cString_safe fun _ d h => h.stopped).bind fun _ => ?_
  refine Safe.bind (Q := fun _ d => Filling version old (leaves done ++ [(file.1.val, .file [])]) d ∧
      (leaves done).lookup file.1.val = none)
    (change_safe (fun d _ _ _ h => h.1.stopped) (fun d _ h _ => h.1.stopped) ?_) fun _ => ?_
  · rintro d d' ⟨h, -⟩ hact
    unfold createFile at hact
    rw [openDir_eq_ok.mpr h.pending] at hact
    simp only [bind, Except.bind] at hact
    split at hact
    next hfresh =>
      cases hact
      exact ⟨h.set, hfresh⟩
    · cases hact
  · have hdone : leaves (done ++ [file]) = leaves done ++ [(file.1.val, .file file.2)] := by
      rw [leaves, map_append]
      rfl
    rw [hdone]
    refine Safe.bind
      (Safe.orFail (Q := Attempted (Stopped visible version old new)
        fun _ => Filling version old (leaves done ++ [(file.1.val, .file file.2)]))
        (Safe.diskStep ?_ ?_ ?_ ?_) fun _ _ h => h)
      fun _ => touch_safe fun d _ _ _ h => h.stopped
    · intro d _ d' h hact
      cases hact
      exact putBytes_filling file.2 h.1 h.2
    · intro d cause _ hact
      cases hact
    · exact fun d n _ _ h => (putBytes_filling (file.2.take n) h.1 h.2).stopped
    · exact fun d n _ h => (putBytes_filling (file.2.take n) h.1 h.2).stopped

/-- **The pending directory.**  When all files are written it is the complete release. -/
theorem fillPending_safe (files : Files) :
    Safe (Ends visible) (Stopped visible version old new) (Filling version old [])
      (fillPending host version files) fun _ => Filling version old (leaves files) :=
  (Safe.forEach (fun done => Filling version old (leaves done))
    (fun done file => persistFile_safe done file) files []).bind fun _ =>
      touch_safe fun _ _ _ _ h => h.stopped

/-- Between the two renames. -/
structure Staged (version : Text) (old : Option Files) (new : Files) (d : PackageDir) : Prop where
  missing : d.entry version = none
  previous : d.entry (previousText version) = old.map complete
  pending : d.entry (pendingText version) = some (complete new)

theorem Staged.stopped (h : Staged version old new d) (hv : ¬ visible) :
    Stopped visible version old new d := by
  refine ⟨⟨?_, ?_⟩, ?_⟩
  · rw [h.previous]
    exact isDir_complete old
  · rw [h.pending]
    exact isDir_directory _
  · cases old with
    | none => exact .inl ⟨h.missing, fun _ => h.previous⟩
    | some files => exact .inr (.inl ⟨hv, rfl, h.missing, h.previous⟩)

/-- The new release is in place. -/
structure Replaced (version : Text) (old : Option Files) (new : Files) (d : PackageDir) : Prop where
  release : d.entry version = some (complete new)
  previous : d.entry (previousText version) = old.map complete
  pending : d.entry (pendingText version) = none

theorem Replaced.stopped (h : Replaced version old new d) : Stopped visible version old new d := by
  refine ⟨⟨?_, ?_⟩, .inr (.inr h.release)⟩
  · rw [h.previous]
    exact isDir_complete old
  · rw [h.pending]
    exact isDir_none

/-- The first rename, if there is a release to move aside. -/
theorem stage_safe {describe : String → Diagnostic} :
    Safe (Ends visible) (Stopped visible version old new) (Filling version old (leaves new))
      (onlyIf old.isSome (orFail describe (change (rename host version (previousText version)))))
      fun _ => Staged version old new := by
  refine onlyIf_safe ?_ ?_
  · intro hsome
    obtain ⟨files, rfl⟩ := isSome_iff_exists.mp hsome
    refine change_safe (fun d _ _ _ h => h.stopped) (fun d _ h _ => h.stopped) ?_
    intro d d' h hact
    rw [rename_eq_ok_of_free h.release h.previous] at hact
    cases hact
    refine ⟨?_, ?_, ?_⟩
    · simp
    · simp
    · simp [h.pending, complete, leaves]
  · intro hnone d h
    obtain rfl : old = none := by simpa using hnone
    exact ⟨h.release, h.previous, h.pending⟩

/-- **The replacement.**  The second rename fails only from outside, and then the release is moved back
or is found aside by the next attempt. -/
theorem replaceVersion_safe :
    Safe (Ends visible) (Stopped visible version old new) (Filling version old (leaves new))
      (replaceVersion host version old.isSome) fun _ => Replaced version old new := by
  have hrename : ∀ d, Staged version old new d → rename host (pendingText version) version d =
      .ok ((d.set (pendingText version) none).set version (some (complete new))) :=
    fun d h => rename_eq_ok_of_free h.pending h.missing
  refine stage_safe.bind fun _ => ?_
  refine Safe.bind (Q := Attempted (fun d => Staged version old new d ∧ ¬ visible)
    fun _ => Replaced version old new) (Safe.diskStep ?_ ?_ ?_ ?_) fun result => ?_
  · intro d _ d' h hact
    rw [hrename d h] at hact
    cases hact
    refine ⟨?_, ?_, ?_⟩
    · simp
    · simp [h.previous]
    · simp
  · intro d cause h hact
    rw [hrename d h] at hact
    cases hact
  · exact fun d n cause he h => ⟨h, not_visible_of_fault he (by simp)⟩
  · exact fun d n he h => h.stopped (not_visible_of_fault he (by simp))
  · cases result with
    | ok _ => exact Safe.pure _ fun d h => h
    | error cause =>
      refine Safe.bind
        (onlyIf_safe ?_ fun _ d h => h.1.stopped h.2) fun _ => stop_safe fun d h => h
      intro hsome
      obtain ⟨files, rfl⟩ := isSome_iff_exists.mp hsome
      refine change_safe (fun d _ _ _ h => h.1.stopped h.2) (fun d _ h _ => h.1.stopped h.2) ?_
      rintro d d' ⟨h, -⟩ hact
      rw [rename_eq_ok_of_free h.previous h.missing] at hact
      cases hact
      refine ⟨⟨?_, ?_⟩, .inl ⟨?_, ?_⟩⟩
      · simp [isDir_none]
      · simp [h.pending, complete, isDir_directory]
      · simp
      · intro h
        cases h

theorem stopped_set_pending (hnode : IsDir node) (h : Stopped visible version old new d) :
    Stopped visible version old new (d.set (pendingText version) node) := by
  have hversion : (d.set (pendingText version) node).entry version = d.entry version := by simp
  have hprevious : (d.set (pendingText version) node).entry (previousText version) =
      d.entry (previousText version) := by simp
  refine ⟨⟨?_, ?_⟩, ?_⟩
  · rw [hprevious]
    exact h.1.previous
  · simpa using hnode
  · rcases h.2 with hvisible | ⟨hv, haside⟩ | hnew
    · exact .inl ⟨hversion.trans hvisible.release, fun h => hprevious.trans (hvisible.aside h)⟩
    · exact .inr (.inl ⟨hv, haside.some, hversion.trans haside.missing, hprevious.trans haside.release⟩)
    · exact .inr (.inr (hversion.trans hnew))

theorem publishFiles_safe : Safe (Ends visible) (Stopped visible version old new) (Ready version old)
      (publishFiles host version new old.isSome) fun _ => Replaced version old new := by
  have hready : ∀ d, Ready version old d → Stopped visible version old new d :=
    fun d h => stopped_of_release h.release h.previous (h.pending.symm ▸ isDir_none)
  refine Safe.bind (Q := fun _ => Filling version old [])
    (change_safe (fun d _ _ _ h => hready d h) (fun d _ h _ => hready d h) ?_) fun _ => ?_
  · intro d d' h hact
    unfold makeDir at hact
    rw [h.pending] at hact
    cases hact
    exact filling_set h.release h.previous
  · refine (look_safe (fun d _ _ _ h => h.stopped) fun d _ h _ => h.stopped).bind fun _ => ?_
    have hbody : Safe (Ends visible) (Stopped visible version old new) (Filling version old [])
        (fillPending host version new >>= fun _ => replaceVersion host version old.isSome)
        fun _ => Replaced version old new :=
      (fillPending_safe new).bind fun _ => replaceVersion_safe
    have hcleanup : Safe (Ends visible) (Stopped visible version old new)
        (Stopped visible version old new) (removeAnchoredReleaseDir host (pendingText version))
        fun _ => Stopped visible version old new :=
      removeAnchoredReleaseDir_safe (fun d h => h)
        (fun d content h => stopped_set_pending (isDir_directory content) h)
        fun d h => stopped_set_pending isDir_none h
    exact ((hbody.guarded hcleanup).mono (fun d h => h.1) fun _ _ h => h).bind fun _ =>
      touch_safe fun d _ _ _ h => h.stopped

end Transaction

/-- **One attempt.**  It leaves the old release or the new one, complete; aside only where a fault may
have come between the two renames. -/
theorem publishReleaseTransaction_safe (visible : Prop) (host : Host) (package : Package)
    (version : FileName) (request : Request) (old : Option Files)
    (hnul : visible → NulFree package version.val) :
    Safe (Ends visible) (Stopped visible version.val old request.files) (Between version.val old)
      (publishReleaseTransaction host package version request)
      fun _ => Replaced version.val old request.files := by
  have hfault : ∀ d e, Ends visible e → e ≠ .done → Between version.val old d →
      Stopped visible version.val old request.files d :=
    fun d e he hne h => h.stopped (not_visible_of_fault he hne)
  refine (openRelease_safe hfault (fun d h => h.congr fun _ _ => rfl) fun hfree d h =>
    h.stopped fun hv => hfree (hnul hv)).bind fun _ => ?_
  refine ((look_safe hfault fun d _ _ h => by cases h).mono (fun d h => h.1)
    fun _ _ h => h).bind fun finalExists => ?_
  refine (look_safe (fun d e he hne h => hfault d e he hne h.1)
    fun d _ _ h => by cases h).bind fun previousExists => ?_
  -- nothing but directories is under the names
  have hanswers : ∀ d, ((Between version.val old d ∧
      (Except.ok ((d.entry version.val).map Node.isDirectory) : Except String _) = .ok finalExists) ∧
      (Except.ok ((d.entry (previousText version.val)).map Node.isDirectory) : Except String _) =
        .ok previousExists) →
      Between version.val old d ∧ Answers version.val finalExists previousExists d :=
    fun d h => ⟨h.1.1, Except.ok.inj h.1.2, Except.ok.inj h.2⟩
  refine Safe.mono ?_ hanswers fun _ _ h => h
  have hfinal : ∀ d, (Between version.val old d ∧ Answers version.val finalExists previousExists d) →
      finalExists ≠ some false := by
    rintro d ⟨⟨-, hkept⟩, hfinal, -⟩ rfl
    rcases hkept with hvisible | haside
    · rw [hvisible.release] at hfinal
      cases old <;> cases hfinal
    · rw [haside.missing] at hfinal
      cases hfinal
  have hprevious : ∀ d, (Between version.val old d ∧
      Answers version.val finalExists previousExists d) → previousExists ≠ some false := by
    rintro d ⟨⟨hshape, -⟩, -, hprevious⟩ rfl
    cases hentry : d.entry (previousText version.val) with
    | none =>
      rw [hentry] at hprevious
      cases hprevious
    | some node =>
      obtain ⟨content, rfl⟩ := hshape.previous node hentry
      rw [hentry] at hprevious
      cases hprevious
  split
  next h => exact stop_safe fun d hd => absurd h (hfinal d hd)
  split
  next h => exact stop_safe fun d hd => absurd h (hprevious d hd)
  refine restoreInterrupted_safe.bind ?_
  rintro ⟨final, previous⟩
  dsimp only
  refine Safe.assuming fun d hd => ?_
  obtain ⟨-, rfl, -⟩ := id hd
  refine Safe.mono (P := fun d => Settled version.val old d ∧
    (d.entry (previousText version.val)).map Node.isDirectory = previous) ?_ ?_ fun _ _ h => h
  · have hexists : ((old.map fun _ => true) == some true) = old.isSome := by cases old <;> rfl
    rw [hexists]
    refine clearPending_safe.bind fun _ => ?_
    split
    · exact stop_safe fun d h => h.1.1.stopped
    next hallowed =>
      exact (removePrevious_safe (by simpa using hallowed)).bind fun _ => publishFiles_safe
  · rintro _ rfl
    exact ⟨hd.1, hd.2.2⟩

end Axiomc.Registry
