import Axiomc.Registry.PublishSafety

/-!
# Attempts after attempts

What attempts to publish in one package directory do to a release, however each of them ends.

* `publishReleaseTransaction_frame`: an attempt changes no entry but the three of its version;
* `Apart`: versions whose attempts do not meet;
* `Attempt.after_between`: an attempt leaves what it found, or the new files, and an attempt that nothing
  stops leaves them under the version's name;
* `Reached`, `Sound`: the directories that attempts lead to, and what holds in them.
-/

namespace Axiomc.Registry

open Foundation Attempt List

/-! ### The frame of an attempt -/

theorem rename_eq_ok {host : Host} {source target : Text} {d d' : PackageDir}
    (h : rename host source target d = .ok d') :
    d' = (d.set source none).set target (d.entry source) := by
  unfold rename at h
  split at h <;> cases h <;> rfl

section Frame

variable {A : StepEnd → Prop} {P : PackageDir → Prop} {host : Host} {package : Package}
  {version : FileName}

/-- A step that changes some of the three entries keeps what does not depend on them. -/
def Blind (version : Text) (P : PackageDir → Prop) : Prop :=
  ∀ d name node, name ∈ names version → P d → P (d.set name node)

theorem mem_names_version (version : Text) : version ∈ names version := by simp [names]

theorem mem_names_previous (version : Text) : previousText version ∈ names version := by simp [names]

theorem mem_names_pending (version : Text) : pendingText version ∈ names version := by simp [names]

variable {describe : String → Diagnostic}

theorem rename_frame {source target : Text}
    (hP : Blind version.val P) (hsource : source ∈ names version.val)
    (htarget : target ∈ names version.val) :
    Safe A P P (orFail describe (change (rename host source target))) fun _ => P := by
  refine change_safe (fun _ _ _ _ h => h) (fun _ _ h _ => h) ?_
  intro d d' h hact
  rw [rename_eq_ok hact]
  exact hP _ _ _ htarget (hP _ _ _ hsource h)

theorem remove_frame {name : Text} (hP : Blind version.val P) (hname : name ∈ names version.val) :
    Safe A P P (removeAnchoredReleaseDir host name) fun _ => P :=
  removeAnchoredReleaseDir_safe (fun _ h => h) (fun d _ h => hP d name _ hname h)
    fun d h => hP d name _ hname h

theorem look_frame {α : Type} {act : PackageDir → Except String α} :
    Safe A P P (orFail describe (look act)) fun _ => P :=
  (look_safe (fun _ _ _ _ h => h) fun _ _ h _ => h).mono (fun _ h => h) fun _ _ h => h.1

theorem touch_frame : Safe A P P (orFail describe touch) fun _ => P :=
  touch_safe fun _ _ _ _ h => h

theorem putBytes_frame {leaf : Text} (bytes : Bytes) (hP : Blind version.val P) {d : PackageDir}
    (h : P d) : P (putBytes (pendingText version.val) leaf bytes d) := by
  unfold putBytes
  split
  · exact hP d _ _ (mem_names_pending _) h
  · exact h

section

variable (hP : Blind version.val P)
include hP

theorem persistFile_frame (file : FileName × Bytes) :
    Safe A P P (persistFile host version.val file) fun _ => P := by
  have hname : Safe A P P (cString file.1.val "release file name contains NUL") fun _ => P :=
    (cString_safe fun _ _ h => h).mono (fun _ h => h) fun _ _ h => h.1
  refine hname.bind fun _ => Safe.bind (Q := fun _ => P)
    (change_safe (fun _ _ _ _ h => h) (fun _ _ h _ => h) ?_) fun _ =>
    Safe.bind (Safe.orFail (Q := fun _ => P) (Safe.diskStep ?_ ?_ ?_ ?_)
      fun _ _ h => h) fun _ => touch_frame
  · intro d d' h hact
    unfold createFile at hact
    simp only [bind, Except.bind] at hact
    split at hact
    · cases hact
    · split at hact
      · cases hact
        exact hP d _ _ (mem_names_pending _) h
      · cases hact
  · intro d _ d' h hact
    cases hact
    exact putBytes_frame file.2 hP h
  · exact fun d _ h _ => h
  · exact fun d n _ _ h => putBytes_frame _ hP h
  · exact fun d n _ h => putBytes_frame _ hP h

variable {finalExists : Bool} {request : Request}

theorem replaceVersion_frame :
    Safe A P P (replaceVersion host version.val finalExists) fun _ => P := by
  refine (onlyIf_safe (fun _ => rename_frame hP (mem_names_version _) (mem_names_previous _))
    fun _ _ h => h).bind fun _ => ?_
  refine Safe.bind (Q := fun _ => P) (Safe.diskStep ?_ (fun _ _ h _ => h) (fun _ _ _ _ h => h)
    fun _ _ _ h => h) fun result => ?_
  · intro d _ d' h hact
    cases hrename : rename host (pendingText version.val) version.val d with
    | ok moved =>
      rw [hrename] at hact
      cases hact
      rw [rename_eq_ok hrename]
      exact hP _ _ _ (mem_names_version _) (hP _ _ _ (mem_names_pending _) h)
    | error cause =>
      rw [hrename] at hact
      cases hact
  · cases result with
    | ok _ => exact Safe.pure _ fun _ h => h
    | error cause =>
      exact (onlyIf_safe (fun _ => rename_frame hP (mem_names_previous _) (mem_names_version _))
        fun _ _ h => h).bind fun _ => stop_safe fun _ h => h

theorem publishFiles_frame {files : Files} :
    Safe A P P (publishFiles host version.val files finalExists) fun _ => P := by
  refine Safe.bind (change_safe (fun _ _ _ _ h => h) (fun _ _ h _ => h) ?_)
    fun _ => look_frame.bind fun _ => ?_
  · intro d d' h hact
    unfold makeDir at hact
    split at hact
    · cases hact
      exact hP d _ _ (mem_names_pending _) h
    · cases hact
  · have hfill : Safe A P P (fillPending host version.val files) fun _ => P :=
      (Safe.forEach (fun _ => P) (fun _ file => persistFile_frame hP file) files []).bind
        fun _ => touch_frame
    exact ((hfill.bind fun _ => replaceVersion_frame hP).guarded
      (remove_frame hP (mem_names_pending _))).bind fun _ => touch_frame

theorem publishOpened_frame : Safe A P P (publishOpened host package version request) fun _ => P := by
  refine look_frame.bind fun finalExists => look_frame.bind fun previousExists => ?_
  split
  · exact stop_safe fun _ h => h
  split
  · exact stop_safe fun _ h => h
  have hrestore : Safe A P P (restoreInterrupted host version.val finalExists previousExists)
      fun _ => P := by
    unfold restoreInterrupted
    split
    · exact (rename_frame hP (mem_names_previous _) (mem_names_version _)).bind fun _ =>
        touch_frame.bind fun _ => Safe.pure _ fun _ h => h
    · exact Safe.pure _ fun _ h => h
  have hclear : Safe A P P (clearPending host version.val) fun _ => P := by
    refine look_frame.bind fun answer => ?_
    split
    · exact remove_frame hP (mem_names_pending _)
    · exact stop_safe fun _ h => h
    · exact Safe.pure _ fun _ h => h
  refine hrestore.bind fun answers => hclear.bind fun _ => ?_
  dsimp only
  split
  · exact stop_safe fun _ h => h
  · exact (onlyIf_safe (fun _ => remove_frame hP (mem_names_previous _)) fun _ _ h => h).bind
      fun _ => publishFiles_frame hP

/-- **Frame.**  What does not depend on the three entries of a version is kept. -/
theorem publishReleaseTransaction_frame (hroot : ∀ d, P d → P { d with rootExists := true }) :
    Safe A P P (publishReleaseTransaction host package version request) fun _ => P :=
  ((openRelease_safe (fun _ _ _ _ h => h) hroot fun _ _ h => h).mono (fun _ h => h)
    fun _ _ h => h.1).bind fun _ => publishOpened_frame hP

end

end Frame

/-! ### Versions that do not meet -/

/-- Two versions without a common entry. -/
def Apart (version other : Text) : Prop := ∀ name ∈ names version, name ∉ names other

/-! ### Attempts -/

section Runs

variable {host : Host} {package : Package} {version : FileName}

/-- An attempt for the version, or one that it does not meet. -/
def Concerns (version : FileName) (attempt : Attempt) : Prop :=
  attempt.version = version ∨ Apart version.val attempt.version.val

/-- The release of the version, where readers find it or where the next attempt does. -/
def Holds (version : Text) (files : Files) (d : PackageDir) : Prop :=
  d.entry version = some (complete files) ∨
    (d.entry version = none ∧ d.entry (previousText version) = some (complete files))

theorem complete_injective : Function.Injective complete := by
  intro files files' h
  refine map_injective_iff.mpr ?_ (Node.directory.inj h)
  rintro ⟨name, bytes⟩ ⟨name', bytes'⟩ heq
  simp only [Prod.mk.injEq, Leaf.file.injEq] at heq
  exact Prod.ext (Subtype.ext heq.1) heq.2

variable {d : PackageDir} {files : Files}

theorem Between.holds (h : Between version.val (some files) d) : Holds version.val files d := by
  rcases h.2 with hvisible | haside
  · exact .inl hvisible.release
  · exact .inr ⟨haside.missing, haside.release⟩

variable {old : Option Files}

/-- There is one release at most. -/
theorem Between.eq_of_holds
    (h : Between version.val old d) (hholds : Holds version.val files d) : old = some files := by
  have hmap : ∀ {node : Option Node}, node = old.map complete → node = some (complete files) →
      old = some files := by
    intro node h h'
    rw [h', eq_comm, Option.map_eq_some_iff] at h
    obtain ⟨found, rfl, heq⟩ := h
    rw [complete_injective heq]
  rcases h.2 with hvisible | haside <;> rcases hholds with hnamed | ⟨hmissing, hbeside⟩
  · exact hmap hvisible.release hnamed
  · have hnone : old = none := by
      have hrelease := hvisible.release
      rw [hmissing] at hrelease
      exact Option.map_eq_none_iff.mp hrelease.symm
    rw [hvisible.aside hnone] at hbeside
    cases hbeside
  · rw [haside.missing] at hnamed
    cases hnamed
  · exact hmap haside.release hbeside

variable {attempt : Attempt}

/-- An attempt that the version does not meet leaves its entries alone. -/
theorem Attempt.after_apart (h : Apart version.val attempt.version.val) (d : PackageDir) :
    ∀ name ∈ names version.val, (attempt.after host package d).entry name = d.entry name := by
  have hblind : Blind attempt.version.val fun d' =>
      ∀ name ∈ names version.val, d'.entry name = d.entry name := by
    intro d' other node hother hsame name hname
    have hne : name ≠ other := fun heq => h name hname (heq ▸ hother)
    rw [PackageDir.set_entry, if_neg hne]
    exact hsame name hname
  exact Safe.disk (publishReleaseTransaction_frame hblind fun _ hsame => hsame)
    (fun _ _ h => h) (fun _ _ => trivial) fun _ _ => rfl

/-- A text that holds a NUL is refused before anything is changed. -/
theorem Attempt.after_nul (h : ¬ NulFree package attempt.version.val)
    (d : PackageDir) : ∀ name, (attempt.after host package d).entry name = d.entry name := by
  have hrefused : Safe (fun _ => True) (fun d' : PackageDir => ∀ name, d'.entry name = d.entry name)
      (fun d' => ∀ name, d'.entry name = d.entry name)
      (publishReleaseTransaction host package attempt.version attempt.request) fun _ _ => False :=
    (openRelease_safe (fun _ _ _ _ h => h) (fun _ h => h) fun _ _ h => h).bind fun _ d' ends _ hd' =>
      absurd hd'.2 h
  exact hrefused.disk (fun _ _ h => h.elim) (fun _ _ => trivial) fun _ => rfl

/-- **One attempt.**  The release stays, or is the new one. -/
theorem Attempt.after_between (host : Host) (package : Package)
    (hconcerns : Concerns version attempt) (h : Between version.val old d) :
    Between version.val old (attempt.after host package d) ∨
      (attempt.version = version ∧ NulFree package version.val ∧
        (attempt.after host package d).entry version.val = some (complete attempt.request.files) ∧
        Between version.val (some attempt.request.files) (attempt.after host package d)) := by
  rcases hconcerns with rfl | hapart
  · by_cases hnul : NulFree package attempt.version.val
    · have hstopped := (publishReleaseTransaction_safe False host package attempt.version
        attempt.request old fun hv => hv.elim).disk (fun _ _ h => h.stopped)
        (fun e (_ : e ∈ attempt.ends) hv => hv.elim) h
      obtain ⟨hshape, hvisible | ⟨-, haside⟩ | hnew⟩ := hstopped
      · exact .inl ⟨hshape, .inl hvisible⟩
      · exact .inl ⟨hshape, .inr haside⟩
      · exact .inr ⟨rfl, hnul, hnew, hshape, .inl ⟨hnew, fun hnone => nomatch hnone⟩⟩
    · exact .inl (h.congr fun name _ => after_nul hnul d name)
  · exact .inl (h.congr (after_apart hapart d))

/-- **An attempt that nothing stops.**  The release is under its name then, the old one or the new. -/
theorem Attempt.after_unstopped {request : Request}
    (hnul : NulFree package version.val) (h : Between version.val (some files) d) :
    (after host package ⟨version, request, []⟩ d).entry version.val = some (complete files) ∨
      (after host package ⟨version, request, []⟩ d).entry version.val =
        some (complete request.files) := by
  have hstopped := (publishReleaseTransaction_safe True host package version request (some files)
    fun _ => hnul).disk (fun _ _ h => h.stopped) (fun e (h : e ∈ []) => nomatch h) h
  obtain ⟨-, hvisible | ⟨hv, -⟩ | hnew⟩ := hstopped
  · exact .inl hvisible.release
  · exact absurd trivial hv
  · exact .inr hnew

/-- What attempts lead to: nothing is there but a release, and a text with a NUL has none. -/
def Sound (package : Package) (version : FileName) (d : PackageDir) : Prop :=
  ∃ old, Between version.val old d ∧ (old.isSome → NulFree package version.val)

theorem Sound.after (hconcerns : Concerns version attempt)
    (h : Sound package version d) : Sound package version (attempt.after host package d) := by
  obtain ⟨old, hbetween, hnul⟩ := h
  rcases after_between host package hconcerns hbetween with hsame | ⟨-, hfree, -, hnew⟩
  · exact ⟨old, hsame, hnul⟩
  · exact ⟨some attempt.request.files, hnew, fun _ => hfree⟩

/-- The directories that attempts lead to from one without entries for the version. -/
def Reached (host : Host) (package : Package) (version : FileName) (d : PackageDir) : Prop :=
  ∃ start attempts, (∀ name ∈ names version.val, start.entry name = none) ∧
    (∀ attempt ∈ attempts, Concerns version attempt) ∧ d = runAll host package attempts start

variable {attempts : List Attempt}

theorem Sound.runAll : ∀ {d : PackageDir}, (∀ attempt ∈ attempts, Concerns version attempt) →
      Sound package version d → Sound package version (runAll host package attempts d) := by
  induction attempts with
  | nil => exact fun _ h => h
  | cons attempt attempts ih =>
    intro d hconcerns h
    exact ih (fun a ha => hconcerns a (mem_cons_of_mem _ ha))
      (h.after (hconcerns attempt mem_cons_self))

theorem Reached.sound (h : Reached host package version d) : Sound package version d := by
  obtain ⟨start, attempts, hstart, hconcerns, rfl⟩ := h
  refine Sound.runAll hconcerns ⟨none, ⟨⟨?_, ?_⟩, .inl ⟨?_, fun _ => ?_⟩⟩, fun h => nomatch h⟩
  · rw [hstart _ (mem_names_previous _)]
    exact isDir_none
  · rw [hstart _ (mem_names_pending _)]
    exact isDir_none
  · exact hstart _ (mem_names_version _)
  · exact hstart _ (mem_names_previous _)

/-- The releases that attempts are for. -/
def submitted (version : FileName) (attempts : List Attempt) : List Files :=
  (attempts.filter fun attempt => attempt.version = version).map fun attempt => attempt.request.files

/-- **All later attempts.**  The release stays, or is one of theirs. -/
theorem Between.runAll (host : Host) (package : Package) :
    ∀ {files : Files} {d : PackageDir}, (∀ attempt ∈ attempts, Concerns version attempt) →
      Between version.val (some files) d → ∃ kept ∈ files :: submitted version attempts,
        Between version.val (some kept) (runAll host package attempts d) := by
  induction attempts with
  | nil => exact fun _ h => ⟨_, mem_cons_self, h⟩
  | cons attempt attempts ih =>
    intro files d hconcerns h
    have hrest : ∀ a ∈ attempts, Concerns version a := fun a ha =>
      hconcerns a (mem_cons_of_mem _ ha)
    rcases after_between host package
        (hconcerns attempt mem_cons_self) h with hsame | ⟨hversion, -, -, hnew⟩
    · obtain ⟨kept, hkept, hbetween⟩ := ih hrest hsame
      refine ⟨kept, ?_, hbetween⟩
      rcases mem_cons.mp hkept with rfl | hkept
      · exact mem_cons_self
      · obtain ⟨other, hother, rfl⟩ := mem_map.mp hkept
        refine mem_cons_of_mem _ (mem_map_of_mem ?_)
        exact (sublist_cons_self attempt attempts).filter _ |>.subset hother
    · obtain ⟨kept, hkept, hbetween⟩ := ih hrest hnew
      refine ⟨kept, mem_cons_of_mem _ ?_, hbetween⟩
      rw [submitted, filter_cons_of_pos (by simpa using hversion)]
      exact hkept

/-- **Crash safety.**  Of a directory with a complete release, an attempt that stops anywhere leaves that
release or the new one in place, or the old one aside and nothing under its name.  Whatever attempts
follow, and wherever they stop, one complete release is kept; and the next attempt that nothing stops has
it, or its own, under the version's name. -/
theorem publish_crash_safe (host : Host) (package : Package) (version : FileName) (d : PackageDir)
    (hreached : Reached host package version d) (old : Files) (hold : Holds version.val old d)
    (request : Request) (ends : List StepEnd) :
    let d' := after host package ⟨version, request, ends⟩ d
    (Holds version.val old d' ∨ d'.entry version.val = some (complete request.files)) ∧
    ∀ later : List Attempt, (∀ attempt ∈ later, Concerns version attempt) →
      let d'' := runAll host package later d'
      ∃ files ∈ old :: request.files :: submitted version later, Holds version.val files d'' ∧
        ∀ last : Request, let d₃ := after host package ⟨version, last, []⟩ d''
          d₃.entry version.val = some (complete files) ∨
            d₃.entry version.val = some (complete last.files) := by
  obtain ⟨found, hbetween, hnul⟩ := hreached.sound
  obtain rfl := hbetween.eq_of_holds hold
  have hfree := hnul rfl
  have hconcerns : Concerns version ⟨version, request, ends⟩ := .inl rfl
  have hattempt := after_between host package hconcerns hbetween
  refine ⟨?_, ?_⟩
  · rcases hattempt with hsame | ⟨-, -, hnew, -⟩
    · exact .inl hsame.holds
    · exact .inr hnew
  · intro later hlater
    obtain ⟨first, hfirst, hafter⟩ : ∃ first ∈ [old, request.files],
        Between version.val (some first) (after host package ⟨version, request, ends⟩ d) := by
      rcases hattempt with hsame | ⟨-, -, -, hnew⟩
      · exact ⟨old, by simp, hsame⟩
      · exact ⟨request.files, by simp, hnew⟩
    obtain ⟨files, hfiles, hrun⟩ := hafter.runAll host package hlater
    refine ⟨files, ?_, hrun.holds, fun last => after_unstopped hfree hrun⟩
    rcases mem_cons.mp hfiles with rfl | hfiles
    · rcases mem_cons.mp hfirst with rfl | hfirst
      · exact mem_cons_self
      · exact mem_cons_of_mem _ (mem_singleton.mp hfirst ▸ mem_cons_self)
    · exact mem_cons_of_mem _ (mem_cons_of_mem _ hfiles)

end Runs

/-! ### A stop between the two renames -/

def plainHost : Host := ⟨fun _ => "", id⟩

def corePackage : Package := ⟨.ofText "registry".toList, "axiom".toList, "core".toList⟩

def coreVersion : FileName := ⟨"1.2.3".toList, by decide⟩

def archive (bytes : Bytes) : Files := [(⟨"package.axp".toList, by decide⟩, bytes)]

/-- A directory with one release. -/
def publishedOnce : PackageDir :=
  runAll plainHost corePackage [⟨coreVersion, ⟨false, archive [1]⟩, []⟩] ⟨false, fun _ => none⟩

/-- An overwrite of it that stops at the second rename. -/
def stoppedOverwrite : PackageDir :=
  after plainHost corePackage
    ⟨coreVersion, ⟨true, archive [2]⟩, replicate 17 .done ++ [.crashed 0]⟩ publishedOnce

/-- Nothing is under the version's name then, and the next attempt, which may not overwrite, brings the
old release back. -/
theorem overwrite_stopped_at_second_rename : (stoppedOverwrite.entry coreVersion.val = none ∧
      (after plainHost corePackage ⟨coreVersion, ⟨false, archive [3]⟩, []⟩
        stoppedOverwrite).entry coreVersion.val = some (complete (archive [1]))) ∧
    (Holds coreVersion.val (archive [1]) stoppedOverwrite ∨
      stoppedOverwrite.entry coreVersion.val = some (complete (archive [2]))) := by
  have hreached : Reached plainHost corePackage coreVersion publishedOnce :=
    ⟨⟨false, fun _ => none⟩, [⟨coreVersion, ⟨false, archive [1]⟩, []⟩], fun _ _ => rfl,
      fun attempt h => .inl (by rw [mem_singleton.mp h]), rfl⟩
  have hold : Holds coreVersion.val (archive [1]) publishedOnce := .inl (by decide +kernel)
  have hsafe := (publish_crash_safe plainHost corePackage coreVersion publishedOnce hreached
    (archive [1]) hold ⟨true, archive [2]⟩ (replicate 17 .done ++ [.crashed 0])).1
  refine ⟨⟨by decide +kernel, by decide +kernel⟩, ?_⟩
  exact hsafe

end Axiomc.Registry
