import Axiomc.Formatter.Tokens

/-!
# Writing lexemes and reading them again

The rendering of a line's lexemes reads as the same lexemes when no two of them run together where no
space is written (`renderFrom_reads`).  A space is left out by `needsSpace` or in an argument list of a
generic, so what can run together is known (`runsOn_of_glues`, `words_of_glues`): two colons, an
exclamation mark or an ampersand before its second half, and two words of an argument list.  `Separable`
excludes these.
-/

namespace Axiomc.Formatter

open Foundation List Option

/-! ### Neighbours that run together -/

/-- Written directly before this character, the lexeme is read with it. -/
def Glues (l : Lexeme) (d : Char) : Prop :=
  (l.kind = .word ∧ InWord d) ∨
    ∃ c, l.text = [c] ∧ (l.kind = .punctuation ∨ l.kind = .operator) ∧
      ([c, d] ∈ multi ∨ (c = '/' ∧ d = '/'))

variable {l a b : Lexeme} {comment : Option Text} {line : Text} {lexemes : List Lexeme} {d : Char}

/-- What follows a lexeme matters through its first character alone. -/
theorem Reading.replace {tail tail' : Text} (h : Reading l tail)
    (hnil : tail = [] → tail' = []) (hglue : ∀ d ∈ tail'.head?, ¬ Glues l d) : Reading l tail' := by
  have hfree : ∀ c, l.text = [c] → l.kind = .punctuation ∨ l.kind = .operator → Free c tail' :=
    fun c htext hkind d hd => ⟨fun hmem => hglue d hd (.inr ⟨c, htext, hkind, .inl hmem⟩),
      fun hslash => hglue d hd (.inr ⟨c, htext, hkind, .inr hslash⟩)⟩
  cases h with
  | literal hq h =>
    refine .literal hq ?_
    rcases quoted_append h with rfl | hall
    · rw [hnil rfl]
      exact h
    · exact hall _
  | multi h => exact .multi h
  | punctuation hc h => exact .punctuation hc (hfree _ rfl (.inl rfl))
  | operator hc h => exact .operator hc (hfree _ rfl (.inr rfl))
  | word hc hw h => exact .word hc hw fun d hd hin => hglue d hd (.inl ⟨rfl, hin⟩)

theorem not_glues_space (l : Lexeme) : ¬ Glues l ' ' := by
  rintro (⟨-, hin⟩ | ⟨c, -, -, hmem | ⟨-, hd⟩⟩)
  · exact absurd hin.1 (by decide)
  · have hlast : ∀ operator ∈ multi, operator.getLast? ≠ some ' ' := by decide
    exact hlast _ hmem rfl
  · cases hd

/-- No two lexemes that are written without a space run together. -/
def TightFree (lexemes : List Lexeme) : Prop :=
  ∀ i a b, lexemes[i]? = some a → lexemes[i + 1]? = some b → spaceAt lexemes (i + 1) = false →
    ∀ d ∈ b.text.head?, ¬ Glues a d

/-! ### The rendering -/

/-- The rendering of the lexemes from `index` on. -/
def renderFrom (all : List Lexeme) (index : Nat) (rest : List Lexeme) : Text :=
  (rest.zipIdx index).flatMap fun entry =>
    (if spaceAt all entry.2 then [' '] else []) ++ entry.1.text

theorem render_eq (lexemes : List Lexeme) : render lexemes = renderFrom lexemes 0 lexemes := rfl

theorem renderFrom_cons (all : List Lexeme) (index : Nat) (l : Lexeme) (rest : List Lexeme) :
    renderFrom all index (l :: rest) =
      (if spaceAt all index then [' '] else []) ++ (l.text ++ renderFrom all (index + 1) rest) := by
  rw [renderFrom, zipIdx_cons, flatMap_cons, append_assoc]
  rfl

/-- The comment at the end of a formatted line. -/
def ending : Option Text → Text
  | some comment => ' ' :: comment
  | none => []

theorem reads_ending (h : Reads line [] comment) : Reads (ending comment) [] comment := by
  generalize hlexemes : ([] : List Lexeme) = lexemes at h
  induction h with
  | done => exact .done
  | comment h => exact .blank (by decide) (.comment h)
  | blank _ _ ih => exact ih hlexemes
  | lexeme _ _ _ => cases hlexemes

theorem Reads.nil (h : Reads [] lexemes comment) : lexemes = [] ∧ comment = none := by
  generalize hline : ([] : Text) = line at h
  cases h with
  | done => exact ⟨rfl, rfl⟩
  | comment h =>
    subst hline
    cases h
  | blank _ _ => cases hline
  | lexeme hl _ =>
    obtain ⟨c, rest, htext, -⟩ := nextLexeme_of_reading hl.code.1 hl.code.2
    rw [htext] at hline
    cases hline

/-- A lexeme that can be read. -/
def Shaped (l : Lexeme) : Prop := ∃ tail, Reading l tail

theorem Reads.shaped (h : Reads line lexemes comment) : ∀ l ∈ lexemes, Shaped l := by
  induction h with
  | done => simp
  | comment _ => simp
  | blank _ _ ih => exact ih
  | lexeme hl _ ih =>
    intro l hmem
    rcases mem_cons.mp hmem with rfl | hmem
    · exact ⟨_, hl⟩
    · exact ih l hmem

/-- The first character of a lexeme. -/
theorem Shaped.head (h : Shaped l) :
    ∃ c rest, l.text = c :: rest ∧ isWhitespace c = false ∧ c ≠ '#' := by
  obtain ⟨tail, h⟩ := h
  obtain ⟨c, rest, htext, hspace, hhash, -⟩ := nextLexeme_of_reading h.code.1 h.code.2
  exact ⟨c, rest, htext, hspace, hhash⟩

/-- **Rendering.**  What is written is read as the same lexemes.  The induction is on the reading of the
original line, which says what each lexeme is. -/
theorem renderFrom_reads {all : List Lexeme} (hfree : TightFree all) (h : Reads line lexemes comment) :
    ∀ index, all.drop index = lexemes →
      Reads (renderFrom all index lexemes ++ ending comment) lexemes comment := by
  induction h with
  | done => exact fun _ _ => .done
  | comment h => exact fun _ _ => reads_ending (.comment h)
  | blank _ _ ih => exact ih
  | @lexeme l tail lexemes comment hl h ih =>
    intro index hdrop
    have hl_at : all[index]? = some l := by
      rw [← head?_drop, hdrop]
      rfl
    have hdrop' : all.drop (index + 1) = lexemes := by
      rw [← tail_drop, hdrop]
      rfl
    have hrest := ih (index + 1) hdrop'
    have hreading : Reading l (renderFrom all (index + 1) lexemes ++ ending comment) := by
      refine hl.replace ?_ ?_
      · rintro rfl
        obtain ⟨rfl, rfl⟩ := h.nil
        rfl
      · intro d hd
        cases lexemes with
        | nil =>
          cases comment with
          | none => cases hd
          | some comment =>
            obtain rfl := some.inj hd
            exact not_glues_space l
        | cons b rest =>
          rw [renderFrom_cons] at hd
          by_cases hspace : spaceAt all (index + 1) = true
          · rw [if_pos hspace] at hd
            obtain rfl := some.inj hd
            exact not_glues_space l
          · have hb_at : all[index + 1]? = some b := by
              rw [← head?_drop, hdrop']
              rfl
            obtain ⟨c, text, htext, -⟩ := (h.shaped b mem_cons_self).head
            refine hfree index l b hl_at hb_at (by simpa using hspace) d ?_
            rw [if_neg hspace, htext] at hd
            rw [htext]
            exact hd
    rw [renderFrom_cons, append_assoc, append_assoc]
    split
    · exact .blank (by decide) (.lexeme hreading hrest)
    · exact .lexeme hreading hrest

/-! ### Which neighbours are written without a space -/

/-- The neighbours that run together where no generic argument list makes them tight. -/
def RunsOn (a b : Lexeme) : Prop :=
  (a.text = [':'] ∧ b.text = [':']) ∨ (a.text = ['!'] ∧ b.text.head? = some '=') ∨
    (a.text = ['&'] ∧ b.text.head? = some '&')

instance (a b : Lexeme) : Decidable (RunsOn a b) := by
  unfold RunsOn
  infer_instance

/-- The kinds of lexemes by their first characters. -/
theorem Shaped.kinds (h : Shaped l) (hd : l.text.head? = some d) :
    (l.kind = .literal ∧ isQuote d = true) ∨
      (l.kind = .operator ∧ (isOperator d = true ∨ d = ':') ∧ (l.text ∈ multi ∨ l.text = [d])) ∨
      (l.kind = .punctuation ∧ l.text = [d] ∧ isPunctuation d = true) ∨
      (l.kind = .word ∧ InWord d) := by
  obtain ⟨tail, h⟩ := h
  cases h with
  | multi h =>
    obtain ⟨c, e, rfl, hc⟩ := length_of_mem_multi h
    obtain rfl := some.inj hd
    exact .inr (.inl ⟨rfl, hc, .inl h⟩)
  | literal hq _ => exact .inl ⟨rfl, some.inj hd ▸ hq⟩
  | punctuation hc _ =>
    obtain rfl := some.inj hd
    exact .inr (.inr (.inl ⟨rfl, rfl, hc⟩))
  | operator hc _ =>
    obtain rfl := some.inj hd
    exact .inr (.inl ⟨rfl, .inl hc, .inr rfl⟩)
  | word hc _ _ => exact .inr (.inr (.inr ⟨rfl, some.inj hd ▸ hc⟩))

/-- The second characters of operators. -/
theorem multi_second {c : Char} (h : [c, d] ∈ multi) :
    d ∈ [':', '>', '=', '&', '|'] ∧ (c = '!' → d = '=') ∧ (c = '&' → d = '&') ∧
      (c = '<' ∨ c = '>' → d = '=') ∧ (isPunctuation c = true → c = ':' ∧ d = ':') := by
  simp only [multi, mem_cons, cons.injEq, and_true, not_mem_nil, or_false] at h
  rcases h with ⟨rfl, rfl⟩ | ⟨rfl, rfl⟩ | ⟨rfl, rfl⟩ | ⟨rfl, rfl⟩ | ⟨rfl, rfl⟩ | ⟨rfl, rfl⟩ |
    ⟨rfl, rfl⟩ | ⟨rfl, rfl⟩ | ⟨rfl, rfl⟩ | ⟨rfl, rfl⟩ | ⟨rfl, rfl⟩ | ⟨rfl, rfl⟩ | ⟨rfl, rfl⟩ <;>
    decide

theorem InWord.ne_of_ends {c : Char} (h : InWord c) (hd : endsWord d = true) : c ≠ d := by
  rintro rfl
  rw [h.1] at hd
  cases hd

/-- A lexeme that begins like a word is one. -/
theorem Shaped.word_of_inWord (h : Shaped l) (hd : l.text.head? = some d)
    (hin : InWord d) : l.kind = .word := by
  obtain ⟨hspace, hpunct, hop, hquote⟩ := hin.ne
  rcases h.kinds hd with ⟨-, hq⟩ | ⟨-, hc | rfl, -⟩ | ⟨-, -, hc⟩ | ⟨hkind, -⟩
  · rw [hquote] at hq
    cases hq
  · rw [hop] at hc
    cases hc
  · exact absurd hpunct (by decide)
  · rw [hpunct] at hc
    cases hc
  · exact hkind

/-- Between two words there is a space. -/
theorem needsSpace_words (ha : Shaped a) (hb : Shaped b) (hakind : a.kind = .word)
    (hbkind : b.kind = .word) : needsSpace a b = true := by
  have hword : ∀ {l : Lexeme}, Shaped l → l.kind = .word → ∃ c w, l.text = c :: w ∧ InWord c := by
    intro l hl hkind
    obtain ⟨c, w, htext, -⟩ := hl.head
    exact ⟨c, w, htext, by simpa [hkind] using hl.kinds (htext ▸ rfl)⟩
  obtain ⟨c, w, htext, hc⟩ := hword ha hakind
  obtain ⟨d, v, htext', hd⟩ := hword hb hbkind
  have hne : ∀ {c : Char}, InWord c → c ≠ '(' ∧ c ≠ ')' ∧ c ≠ '[' ∧ c ≠ ']' ∧ c ≠ '{' ∧ c ≠ '}' ∧
      c ≠ ',' ∧ c ≠ ';' ∧ c ≠ '.' ∧ c ≠ ':' := fun h => by
    refine ⟨?_, ?_, ?_, ?_, ?_, ?_, ?_, ?_, ?_, ?_⟩ <;> exact h.ne_of_ends (by decide)
  simp [needsSpace, hakind, hbkind, htext, htext', hne hc, hne hd]

/-- Without a space between them, only a few neighbours run together. -/
theorem runsOn_of_glues (ha : Shaped a) (hb : Shaped b)
    (hd : b.text.head? = some d) (hspace : needsSpace a b = false) (hglue : Glues a d) :
    RunsOn a b := by
  rcases hglue with ⟨hkind, hin⟩ | ⟨c, htext, hkind, hpair⟩
  · rw [needsSpace_words ha hb hkind (hb.word_of_inWord hd hin)] at hspace
    cases hspace
  have hoperator : a.kind = .operator ∨ b.kind = .operator →
      (b.text = ['!'] ∨ b.text = ['?']) ∨ a.text = ['!'] ∨ a.text = ['&'] := by
    intro hkinds
    rw [needsSpace, if_pos hkinds.symm] at hspace
    have hsplit : ¬ (¬ (b.text = ['!'] ∨ b.text = ['?']) ∧ ¬ (a.text = ['!'] ∨ a.text = ['&'])) := by
      intro h
      simp [h] at hspace
    tauto
  have hsecond : [c, d] ∈ multi ∧ d ∈ [':', '>', '=', '&', '|'] ∨ (c = '/' ∧ d = '/') :=
    hpair.imp_left fun h => ⟨h, (multi_second h).1⟩
  rcases hkind with hkind | hkind
  · -- punctuation: only the colon begins an operator
    have hc : isPunctuation c = true := by simpa [hkind, htext] using ha.kinds (d := c) (htext ▸ rfl)
    rcases hpair with hmem | ⟨rfl, -⟩
    · obtain ⟨rfl, rfl⟩ := (multi_second hmem).2.2.2.2 hc
      refine .inl ⟨htext, ?_⟩
      rcases hb.kinds hd with ⟨-, hq⟩ | ⟨hkind', -, hmem' | hb'⟩ | ⟨-, hb', -⟩ | ⟨-, hin⟩
      · cases hq
      · rcases hoperator (.inr hkind') with (hb' | hb') | ha' | ha'
        · exact absurd (hb' ▸ hmem') (by decide)
        · exact absurd (hb' ▸ hmem') (by decide)
        · rw [htext] at ha'
          cases ha'
        · rw [htext] at ha'
          cases ha'
      · exact hb'
      · exact hb'
      · exact absurd hin.1 (by decide)
    · cases hc
  · rcases hoperator (.inl hkind) with hb' | ha' | ha'
    · -- neither of the two characters comes second in an operator
      have hnot : d ∉ [':', '>', '=', '&', '|'] ∧ d ≠ '/' := by
        rcases hb' with hb' | hb' <;>
        · rw [hb'] at hd
          obtain rfl := some.inj hd
          decide
      rcases hsecond with ⟨-, hmem⟩ | ⟨-, h⟩
      · exact absurd hmem hnot.1
      · exact absurd h hnot.2
    · rw [ha'] at htext
      obtain rfl := (cons.inj htext).1
      rcases hpair with hmem | ⟨h, -⟩
      · exact .inr (.inl ⟨ha', by rw [hd, (multi_second hmem).2.1 rfl]⟩)
      · cases h
    · rw [ha'] at htext
      obtain rfl := (cons.inj htext).1
      rcases hpair with hmem | ⟨h, -⟩
      · exact .inr (.inr ⟨ha', by rw [hd, (multi_second hmem).2.2.1 rfl]⟩)
      · cases h

/-! ### Generic argument lists -/

/-- What a generic argument list consists of. -/
def GenericPart (l : Lexeme) : Prop :=
  l.kind = .word ∨ (l.kind = .operator ∧ (l.text = ['<'] ∨ l.text = ['>'])) ∨ l.text = [',']

theorem genericCloseFrom_parts {rest : List Lexeme} :
    ∀ {index depth : Nat} {sawArgument : Bool} {close : Nat},
      genericCloseFrom index depth sawArgument rest = some close →
      index ≤ close ∧ (∃ l, rest[close - index]? = some l ∧ l.kind = .operator ∧ l.text = ['>']) ∧
        ∀ k, index ≤ k → k ≤ close → ∃ l, rest[k - index]? = some l ∧ GenericPart l := by
  induction rest with
  | nil =>
    intro index depth sawArgument close h
    cases h
  | cons current rest ih =>
    intro index depth sawArgument close h
    -- a lexeme that the loop passes over is a part, and the rest is found behind it
    have hpass : ∀ {depth' : Nat} {saw : Bool}, GenericPart current →
        genericCloseFrom (index + 1) depth' saw rest = some close → index ≤ close ∧
          (∃ l, (current :: rest)[close - index]? = some l ∧ l.kind = .operator ∧ l.text = ['>']) ∧
          ∀ k, index ≤ k → k ≤ close → ∃ l, (current :: rest)[k - index]? = some l ∧ GenericPart l := by
      intro depth' saw hpart hrest
      obtain ⟨hle, ⟨l, hl, hclose⟩, hall⟩ := ih hrest
      have hbehind : ∀ k, index + 1 ≤ k → (current :: rest)[k - index]? = rest[k - (index + 1)]? := by
        intro k hk
        rw [show k - index = k - (index + 1) + 1 from by omega, getElem?_cons_succ]
      refine ⟨by omega, ⟨l, by rw [hbehind close hle, hl], hclose⟩, ?_⟩
      intro k hk hk'
      by_cases heq : k = index
      · subst heq
        exact ⟨current, by simp, hpart⟩
      · obtain ⟨l, hl, hpart'⟩ := hall k (by omega) hk'
        exact ⟨l, by rw [hbehind k (by omega), hl], hpart'⟩
    rw [genericCloseFrom] at h
    split at h
    next hopen => exact hpass (.inr (.inl ⟨hopen.1, .inl hopen.2⟩)) h
    split at h
    next hclose =>
      split at h
      · split at h
        · obtain rfl := some.inj h
          refine ⟨Nat.le_refl _, ⟨current, by simp, hclose⟩, ?_⟩
          intro k hk hk'
          obtain rfl : k = index := by omega
          exact ⟨current, by simp, .inr (.inl ⟨hclose.1, .inr hclose.2⟩)⟩
        · cases h
      · exact hpass (.inr (.inl ⟨hclose.1, .inr hclose.2⟩)) h
    split at h
    next hword => exact hpass (.inl hword) h
    split at h
    next hcomma => exact hpass (.inr (.inr hcomma.2)) h
    · cases h

theorem genericAt_parts {index close : Nat} (h : genericAt lexemes index = some close) :
    (∃ l, lexemes[close]? = some l ∧ l.kind = .operator ∧ l.text = ['>']) ∧
      ∀ k, index ≤ k → k ≤ close → ∃ l, lexemes[k]? = some l ∧ GenericPart l := by
  unfold genericAt at h
  split at h
  next word bracket hword hbracket =>
    split at h
    next hkinds =>
      obtain ⟨hle, hclose, hall⟩ := genericCloseFrom_parts h
      have hdrop : ∀ k, index + 2 ≤ k →
          (lexemes.drop (index + 1 + 1))[k - (index + 1 + 1)]? = lexemes[k]? := by
        intro k hk
        rw [getElem?_drop, show index + 1 + 1 + (k - (index + 1 + 1)) = k from by omega]
      rw [hdrop close hle] at hclose
      refine ⟨hclose, fun k hk hk' => ?_⟩
      by_cases hfirst : k = index
      · subst hfirst
        exact ⟨word, hword, .inl hkinds.1⟩
      by_cases hsecond : k = index + 1
      · subst hsecond
        exact ⟨bracket, hbracket, .inr (.inl ⟨hkinds.2.1, .inl hkinds.2.2⟩)⟩
      · obtain ⟨l, hl, hpart⟩ := hall k (by omega) hk'
        exact ⟨l, by rw [← hdrop k (by omega), hl], hpart⟩
    · cases h
  · cases h

/-- The neighbours at a junction that an argument list makes tight. -/
theorem genericTight_parts {junction : Nat} (h : junction ∈ genericTightJunctions lexemes) :
    ∃ a b, 0 < junction ∧ lexemes[junction - 1]? = some a ∧ lexemes[junction]? = some b ∧
      ((GenericPart a ∧ a.text ≠ [','] ∧ GenericPart b) ∨
        (a.text = ['>'] ∧ a.kind = .operator ∧
          b.text ∈ [['('], [','], [')'], [']'], [';'], ['>']])) := by
  have hfrom : ∀ turns index, junction ∈ genericTightFrom lexemes turns index →
      ∃ index close, genericAt lexemes index = some close ∧
        junction ∈ tightBetween lexemes index close := by
    intro turns
    induction turns with
    | zero =>
      intro index h
      cases h
    | succ turns ih =>
      intro index h
      rw [genericTightFrom] at h
      split at h
      · split at h
        next close hat =>
          rcases mem_append.mp h with h | h
          · exact ⟨index, close, hat, h⟩
          · exact ih _ h
        · exact ih _ h
      · cases h
  obtain ⟨index, close, hat, hmem⟩ := hfrom _ _ h
  obtain ⟨⟨last, hlast, hkind, htext⟩, hall⟩ := genericAt_parts hat
  rcases mem_append.mp hmem with hmem | hmem
  · simp only [mem_filter, mem_range'_1, decide_eq_true_eq] at hmem
    obtain ⟨⟨hlow, hhigh⟩, hcomma⟩ := hmem
    obtain ⟨a, ha, hpart⟩ := hall (junction - 1) (by omega) (by omega)
    obtain ⟨b, hb, hpart'⟩ := hall junction (by omega) (by omega)
    rw [ha, map_some] at hcomma
    exact ⟨a, b, by omega, ha, hb, .inl ⟨hpart, fun h => hcomma (by rw [h]), hpart'⟩⟩
  · split at hmem
    next hnext =>
      obtain rfl := mem_singleton.mp hmem
      cases hb : lexemes[close + 1]? with
      | none =>
        rw [hb] at hnext
        cases hnext
      | some b =>
        rw [hb, any_some, contains_iff_mem] at hnext
        exact ⟨last, b, by omega, by rw [Nat.add_sub_cancel]; exact hlast, rfl,
          .inr ⟨htext, hkind, hnext⟩⟩
    · cases hmem

/-- Neighbours that run together although an argument list makes them tight are words. -/
theorem words_of_glues (hb : Shaped b) (hd : b.text.head? = some d)
    (hparts : (GenericPart a ∧ a.text ≠ [','] ∧ GenericPart b) ∨
      (a.text = ['>'] ∧ a.kind = .operator ∧ b.text ∈ [['('], [','], [')'], [']'], [';'], ['>']]))
    (hglue : Glues a d) : a.kind = .word ∧ b.kind = .word := by
  rcases hglue with ⟨hkind, hin⟩ | ⟨c, htext, hkinds, hpair⟩
  · exact ⟨hkind, hb.word_of_inWord hd hin⟩
  -- an angle bracket runs together with an equals sign alone
  have hangle : c = '<' ∨ c = '>' → d = '=' := by
    intro hc
    rcases hpair with hmem | ⟨rfl, -⟩
    · exact (multi_second hmem).2.2.2.1 hc
    · rcases hc with hc | hc <;> cases hc
  have hequals : b.text.head? = some '=' → b.kind = .operator := by
    intro hhead
    rcases hb.kinds hhead with ⟨-, hq⟩ | ⟨hkind, -⟩ | ⟨-, -, hc⟩ | ⟨-, hin⟩
    · cases hq
    · exact hkind
    · cases hc
    · exact absurd hin.1 (by decide)
  rcases hparts with ⟨hpart, hcomma, hpart'⟩ | ⟨hclose, -, hlist⟩
  · rcases hpart with hkind | ⟨-, hangles⟩ | hcomma'
    · rw [hkind] at hkinds
      rcases hkinds with h | h <;> cases h
    · rw [htext] at hangles
      have hc : c = '<' ∨ c = '>' := hangles.imp (fun h => (cons.inj h).1)
        fun h => (cons.inj h).1
      obtain rfl := hangle hc
      have hop := hequals hd
      rcases hpart' with hkind' | ⟨-, h | h⟩ | h
      · rw [hop] at hkind'
        cases hkind'
      all_goals
        rw [h] at hd
        cases hd
    · exact absurd hcomma' hcomma
  · rw [htext] at hclose
    obtain rfl := hangle (.inr (cons.inj hclose).1)
    have hnone : ∀ text ∈ [['('], [','], [')'], [']'], [';'], ['>']], text.head? ≠ some '=' := by decide
    exact absurd hd (hnone _ hlist)

/-! ### Lines that are read as they were written -/

/-- No neighbours among the lexemes run together when they are written. -/
def Separable (lexemes : List Lexeme) : Prop :=
  ∀ i a b, lexemes[i]? = some a → lexemes[i + 1]? = some b → ¬ RunsOn a b ∧
    ¬ (i + 1 ∈ genericTightJunctions lexemes ∧ a.kind = .word ∧ b.kind = .word)

instance (lexemes : List Lexeme) : Decidable (Separable lexemes) :=
  decidable_of_iff (∀ i : Fin lexemes.length, ∀ a ∈ lexemes[i.val]?, ∀ b ∈ lexemes[i.val + 1]?,
      ¬ RunsOn a b ∧
        ¬ (i.val + 1 ∈ genericTightJunctions lexemes ∧ a.kind = .word ∧ b.kind = .word)) <| by
    constructor
    · intro h i a b ha hb
      exact h ⟨i, (List.getElem?_eq_some_iff.mp ha).1⟩ a ha b hb
    · exact fun h i a ha b hb => h i.val a b ha hb

theorem Separable.tightFree (h : Separable lexemes)
    (hshaped : ∀ l ∈ lexemes, Shaped l) : TightFree lexemes := by
  intro i a b ha hb hspace d hd hglue
  have hsa := hshaped a (mem_of_getElem? ha)
  have hsb := hshaped b (mem_of_getElem? hb)
  obtain ⟨hruns, hwords⟩ := h i a b ha hb
  by_cases htight : i + 1 ∈ genericTightJunctions lexemes
  · obtain ⟨a', b', -, ha', hb', hparts⟩ := genericTight_parts htight
    rw [Nat.add_sub_cancel, ha] at ha'
    rw [hb] at hb'
    obtain rfl := some.inj ha'
    obtain rfl := some.inj hb'
    exact hwords ⟨htight, words_of_glues hsb hd hparts hglue⟩
  · refine hruns (runsOn_of_glues hsa hsb hd ?_ hglue)
    rw [spaceAt, Nat.add_sub_cancel, ha, hb] at hspace
    simpa [htight] using hspace

/-- **A formatted line.**  It has the lexemes and the comment of the line. -/
theorem reads_formatted (h : Reads line lexemes comment) (hseparable : Separable lexemes) :
    Reads (render lexemes ++ ending comment) lexemes comment := by
  exact renderFrom_reads (hseparable.tightFree h.shaped) h 0 rfl

theorem formatCodeLine_eq (h : Reads line lexemes comment) (hcode : lexemes ≠ []) :
    startsComment line = false ∧ formatCodeLine line = render lexemes ++ ending comment := by
  have hstart : startsComment line = false := by
    rw [Bool.eq_false_iff]
    intro hcomment
    have hnone := (Reads.comment hcomment).eq.1
    rw [h.eq.1] at hnone
    exact hcode hnone
  have hrender : (render lexemes).isEmpty = false := by
    obtain ⟨l, rest, rfl⟩ := exists_cons_of_ne_nil hcode
    obtain ⟨c, text, htext, -⟩ := (h.shaped l mem_cons_self).head
    rw [render_eq, renderFrom_cons, htext]
    split <;> rfl
  refine ⟨hstart, ?_⟩
  rw [formatCodeLine, hstart, h.eq.1, h.eq.2.1]
  cases comment with
  | none => simp [ending]
  | some comment => simp [ending, hrender]

end Axiomc.Formatter
