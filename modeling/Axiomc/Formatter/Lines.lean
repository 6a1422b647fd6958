import Axiomc.Formatter.Spacing

/-!
# A formatted line

What the loop over the lines looks at in a line besides its lexemes, for a line that was formatted: the
ends, which are no white space (`trimmed_formatted`), the braces (`braceDelta_trim`), the closing braces
in front (`closes_formatted`), and whether it is a macro declaration (`beginsMacro_of_starts`).
-/

namespace Axiomc.Formatter

open Foundation List Option

/-! ### White space at the ends -/

/-- Neither end of the text is white space. -/
def Trimmed (text : Text) : Prop :=
  (∀ c ∈ text.head?, isWhitespace c = false) ∧ ∀ c ∈ text.getLast?, isWhitespace c = false

variable {text : Text}

theorem dropWhile_eq_self {p : Char → Bool} (h : ∀ c ∈ text.head?, p c = false) :
    text.dropWhile p = text := by
  cases text with
  | nil => rfl
  | cons c rest => rw [dropWhile_cons_of_neg (by simp [h c rfl])]

theorem Trimmed.trim_eq (h : Trimmed text) : trim text = text := by
  rw [trim, trimStart, dropWhile_eq_self h.1, trimEnd, dropWhile_eq_self, reverse_reverse]
  rw [head?_reverse]
  exact h.2

theorem trimmed_trim (text : Text) : Trimmed (trim text) := by
  have hend : ∀ t : Text, ∀ c ∈ (trimEnd t).getLast?, isWhitespace c = false := by
    intro t c hc
    rw [trimEnd, getLast?_reverse] at hc
    have hnot := head?_dropWhile_not isWhitespace t.reverse
    rw [hc] at hnot
    simpa using hnot
  refine ⟨?_, hend _⟩
  intro c hc
  have hfirst : ∀ c ∈ (trimStart text).head?, isWhitespace c = false := by
    intro c hc
    have hnot := head?_dropWhile_not isWhitespace text
    rw [show (text.dropWhile isWhitespace).head? = some c from hc] at hnot
    simpa using hnot
  have hbegins : trim text <+: trimStart text := by
    have hsuffix := dropWhile_suffix (l := (trimStart text).reverse) isWhitespace
    rw [← reverse_prefix, reverse_reverse] at hsuffix
    exact hsuffix
  obtain ⟨rest, hrest⟩ := hbegins
  apply hfirst c
  rw [← hrest]
  cases htrim : trim text with
  | nil =>
    rw [htrim] at hc
    cases hc
  | cons d tail =>
    rw [htrim] at hc
    exact hc

variable {line : Text}

theorem trim_spaces (h : Trimmed line) (n : Nat) :
    trim (replicate n ' ' ++ line) = line ∧ trimStart (replicate n ' ' ++ line) = line := by
  have hstart : trimStart (replicate n ' ' ++ line) = line := by
    induction n with
    | zero => exact dropWhile_eq_self h.1
    | succ n ih =>
      exact ih
  refine ⟨?_, hstart⟩
  have htrim := h.trim_eq
  rw [trim, hstart]
  rw [trim, trimStart, dropWhile_eq_self h.1] at htrim
  exact htrim

/-! ### Braces and white space -/

variable {blanks w : Text} {all : List Lexeme}

theorem braceDeltaFrom_blanks (h : ∀ c ∈ blanks, isWhitespace c = true) :
    ∀ q, braceDeltaFrom q blanks = 0 := by
  induction blanks with
  | nil => exact fun _ => rfl
  | cons c rest ih =>
    intro q
    obtain ⟨-, -, -, hopen, hclose, -⟩ := whitespace_plain (h c mem_cons_self)
    rw [braceDeltaFrom, ih fun x hx => h x (mem_cons_of_mem _ hx)]
    simp [hopen, hclose]

theorem braceDelta_append_blanks (h : ∀ c ∈ blanks, isWhitespace c = true) :
    ∀ (text : Text) (q : Quoting), braceDeltaFrom q (splitCommentFrom q (text ++ blanks)).1 =
        braceDeltaFrom q (splitCommentFrom q text).1 := by
  intro text
  induction text with
  | nil =>
    intro q
    have hcode : ∀ (blanks : Text) (q : Quoting), (∀ c ∈ blanks, isWhitespace c = true) →
        (splitCommentFrom q blanks).1 = blanks := by
      intro blanks
      induction blanks with
      | nil => exact fun _ _ => rfl
      | cons c rest ih =>
        intro q h
        obtain ⟨-, hhash, hslash, -⟩ := whitespace_plain (h c mem_cons_self)
        rw [splitCommentFrom, startsComment_eq_false hhash fun h => absurd h hslash, Bool.and_false]
        exact congrArg (c :: ·) (ih _ fun x hx => h x (mem_cons_of_mem _ hx))
    rw [nil_append, hcode blanks q h, braceDeltaFrom_blanks h]
    rfl
  | cons c rest ih =>
    intro q
    have hcomment : startsComment (c :: (rest ++ blanks)) = startsComment (c :: rest) := by
      rw [Bool.eq_iff_iff, startsComment_cons, startsComment_cons]
      cases rest with
      | cons d tail => rfl
      | nil =>
        cases blanks with
        | nil => rfl
        | cons b tail =>
          have hslash := (whitespace_plain (h b mem_cons_self)).2.2.1
          simp [hslash]
    rw [cons_append, splitCommentFrom, splitCommentFrom, hcomment]
    split
    · rfl
    · rw [braceDeltaFrom, braceDeltaFrom, ih]

theorem braceDelta_trimStart (line : Text) : braceDelta (trimStart line) = braceDelta line := by
  rw [trimStart]
  induction line with
  | nil => rfl
  | cons c rest ih =>
    by_cases hc : isWhitespace c = true
    · obtain ⟨lexemes, comment, hreads⟩ := reads_exists rest
      rw [dropWhile_cons_of_pos hc, ih, hreads.eq.2.2, (Reads.blank hc hreads).eq.2.2]
    · rw [dropWhile_cons_of_neg hc]

theorem braceDelta_trim (line : Text) : braceDelta (trim line) = braceDelta line := by
  obtain ⟨blanks, hsplit, hblanks⟩ : ∃ blanks, trimStart line = trim line ++ blanks ∧
      ∀ c ∈ blanks, isWhitespace c = true := by
    refine ⟨((trimStart line).reverse.takeWhile isWhitespace).reverse, ?_, ?_⟩
    · have hparts := congrArg reverse
        (takeWhile_append_dropWhile (p := isWhitespace) (l := (trimStart line).reverse))
      rw [reverse_append, reverse_reverse] at hparts
      exact hparts.symm
    · intro c hc
      exact mem_takeWhile_imp (mem_reverse.mp hc)
  rw [← braceDelta_trimStart line, hsplit]
  exact (braceDelta_append_blanks hblanks (trim line) unquoted).symm

/-! ### The last character -/

/-- The last character of what is written for these lexemes and this comment. -/
def lastChar (lexemes : List Lexeme) : Option Text → Option Char
  | some comment => comment.getLast?
  | none => lexemes.getLast?.bind fun l => l.text.getLast?

variable {lexemes : List Lexeme} {comment : Option Text}

theorem Reads.last (h : Reads line lexemes comment) :
    ∀ c, line.getLast? = some c → isWhitespace c = false → lastChar lexemes comment = some c := by
  induction h with
  | done =>
    intro c hc
    cases hc
  | comment h => exact fun c hc _ => hc
  | @blank b rest lexemes comment hb h ih =>
    intro c hc hspace
    cases rest with
    | nil =>
      rw [getLast?_singleton] at hc
      obtain rfl := some.inj hc
      rw [hb] at hspace
      cases hspace
    | cons d tail => exact ih c (by rwa [getLast?_cons_cons] at hc) hspace
  | @lexeme l tail lexemes comment hl h ih =>
    intro c hc hspace
    cases tail with
    | nil =>
      obtain ⟨rfl, rfl⟩ := h.nil
      rw [append_nil] at hc
      exact hc
    | cons d tail =>
      rw [getLast?_append_cons] at hc
      have hlast := ih c hc hspace
      cases comment with
      | some comment => exact hlast
      | none =>
        cases lexemes with
        | nil => cases hlast
        | cons b rest =>
          exact hlast

theorem getLast_formatted {c : Char} :
    ∀ {lexemes : List Lexeme} {index : Nat}, lastChar lexemes comment = some c →
      (renderFrom all index lexemes ++ ending comment).getLast? = some c := by
  intro lexemes
  cases comment with
  | some comment =>
    intro index h
    have hcomment : (' ' :: comment).getLast? = some c := by
      rw [show ' ' :: comment = [' '] ++ comment from rfl, getLast?_append,
        show comment.getLast? = some c from h]
      rfl
    rw [ending, getLast?_append, hcomment]
    rfl
  | none =>
    induction lexemes with
    | nil =>
      intro index h
      cases h
    | cons l rest ih =>
      intro index h
      rw [renderFrom_cons, append_assoc, append_assoc, getLast?_append, getLast?_append]
      cases rest with
      | nil =>
        rw [show l.text.getLast? = some c from h]
        rfl
      | cons b tail =>
        rw [ih h]
        rfl

/-! ### Leading braces -/

/-- The closing braces the lexemes begin with. -/
def closers (lexemes : List Lexeme) : Nat := (lexemes.takeWhile fun l => l.text == ['}']).length

theorem leadingCloses_of_head (h : text.head? ≠ some '}') : leadingCloses text = 0 := by
  cases text with
  | nil => rfl
  | cons c rest =>
    have hc : c ≠ '}' := fun heq => h (by rw [heq]; rfl)
    simp [leadingCloses, hc]

/-- A lexeme that begins with a closing brace is that brace. -/
theorem Shaped.brace {l : Lexeme} (h : Shaped l) (hd : l.text.head? = some '}') :
    l = ⟨['}'], .punctuation⟩ := by
  rcases h.kinds hd with ⟨-, hq⟩ | ⟨-, hc | hc, -⟩ | ⟨hkind, htext, -⟩ | ⟨-, hin⟩
  · cases hq
  · cases hc
  · cases hc
  · exact congrArg₂ Lexeme.mk htext hkind
  · exact absurd hin.1 (by decide)

/-- Closing braces are written together. -/
theorem leadingCloses_formatted
    (hcomment : (ending comment).head? ≠ some '}') :
    ∀ {lexemes : List Lexeme} {index : Nat}, all.drop index = lexemes → spaceAt all index = false →
      (∀ l ∈ lexemes, Shaped l) →
      leadingCloses (renderFrom all index lexemes ++ ending comment) = closers lexemes := by
  have hopen : ∀ {l : Lexeme} {rest}, l.text.head? ≠ some '}' → closers (l :: rest) = 0 := by
    intro l rest hhead
    have hne : l.text ≠ ['}'] := by
      intro heq
      rw [heq] at hhead
      exact hhead rfl
    rw [closers, takeWhile_cons_of_neg (by simpa using hne)]
    rfl
  intro lexemes
  induction lexemes with
  | nil => exact fun _ _ _ => leadingCloses_of_head hcomment
  | cons l rest ih =>
    intro index hdrop hspace hshaped
    have hl := hshaped l mem_cons_self
    obtain ⟨c, text, htext, -⟩ := hl.head
    rw [renderFrom_cons, if_neg (by simp [hspace])]
    by_cases hbrace : l.text.head? = some '}'
    · obtain rfl := hl.brace hbrace
      have hdrop' : all.drop (index + 1) = rest := by
        rw [← tail_drop, hdrop]
        rfl
      have hrest : leadingCloses (renderFrom all (index + 1) rest ++ ending comment) = closers rest := by
        cases rest with
        | nil => exact leadingCloses_of_head hcomment
        | cons b tail =>
          have hb := hshaped b (mem_cons_of_mem _ mem_cons_self)
          by_cases hnext : b.text.head? = some '}'
          · obtain rfl := hb.brace hnext
            refine ih hdrop' ?_ fun x hx => hshaped x (mem_cons_of_mem _ hx)
            have hat : all[index]? = some ⟨['}'], .punctuation⟩ := by
              rw [← head?_drop, hdrop]
              rfl
            have hat' : all[index + 1]? = some ⟨['}'], .punctuation⟩ := by
              rw [← head?_drop, hdrop']
              rfl
            have hnone : needsSpace ⟨['}'], .punctuation⟩ ⟨['}'], .punctuation⟩ = false := by decide
            rw [spaceAt, Nat.add_sub_cancel, hat, hat']
            show (_ && needsSpace _ _) = false
            rw [hnone, Bool.and_false]
          · obtain ⟨d, text', htext', -⟩ := hb.head
            rw [hopen hnext]
            apply leadingCloses_of_head
            rw [renderFrom_cons]
            split
            · simp
            · rw [htext']
              rw [htext'] at hnext
              exact hnext
      show leadingCloses ('}' :: (renderFrom all (index + 1) rest ++ ending comment)) = _
      exact congrArg (· + 1) hrest
    · rw [hopen hbrace]
      apply leadingCloses_of_head
      rw [htext]
      rw [htext] at hbrace
      exact hbrace

/-! ### Macro declarations -/

def macroWord : Lexeme := ⟨"macro".toList, .word⟩

def pubWord : Lexeme := ⟨"pub".toList, .word⟩

/-- The lexemes begin like a macro declaration. -/
def BeginsMacro (lexemes : List Lexeme) : Prop :=
  [macroWord] <+: lexemes ∨ [pubWord, macroWord] <+: lexemes

instance (lexemes : List Lexeme) : Decidable (BeginsMacro lexemes) := by
  unfold BeginsMacro
  infer_instance

/-- Words are found by looking at their characters one by one. -/
theorem inWord_of_all (h : w.all (fun x => !endsWord x && x != '#') = true) :
    ∀ x ∈ w, InWord x := by
  intro x hx
  have hword := all_eq_true.mp h x hx
  simp only [Bool.and_eq_true, Bool.not_eq_true', bne_iff_ne] at hword
  exact hword

theorem reads_word_space (hw : ∀ x ∈ w, InWord x) (hne : w ≠ []) (rest : Text) :
    ∃ lexemes comment, Reads (' ' :: rest) lexemes comment ∧
      Reads (w ++ ' ' :: rest) (⟨w, .word⟩ :: lexemes) comment := by
  obtain ⟨lexemes, comment, h⟩ := reads_exists (' ' :: rest)
  obtain ⟨c, tail, rfl⟩ := exists_cons_of_ne_nil hne
  refine ⟨lexemes, comment, h, .lexeme (.word (hw c mem_cons_self) ?_ ?_) h⟩
  · exact fun x hx => hw x (mem_cons_of_mem _ hx)
  · intro d hd
    obtain rfl := some.inj hd
    exact fun hin => absurd hin.1 (by decide)

/-- A line that is a macro declaration begins like one. -/
theorem beginsMacro_of_starts
    (h : Reads line lexemes comment) (hstarts : startsMacroDeclaration line = true) :
    BeginsMacro lexemes := by
  have hdecl : ∀ x ∈ "macro".toList, InWord x := inWord_of_all (by decide)
  have hpub : ∀ x ∈ "pub".toList, InWord x := inWord_of_all (by decide)
  have hsame : ∀ {found : List Lexeme} {comment' : Option Text}, Reads line found comment' →
      found = lexemes := fun h' => h'.eq.1.symm.trans h.eq.1
  obtain ⟨rest, hrest⟩ := isPrefixOf_iff_prefix.mp hstarts
  cases hstrip : stripStart "pub ".toList line with
  | none =>
    rw [hstrip] at hrest
    obtain ⟨found, comment', -, hfound⟩ := reads_word_space hdecl (by decide) rest
    have hline : line = "macro".toList ++ ' ' :: rest := hrest.symm
    rw [← hline] at hfound
    exact .inl ⟨found, hsame hfound⟩
  | some tail =>
    rw [hstrip] at hrest
    rw [stripStart_eq_some_iff] at hstrip
    obtain ⟨found, comment', -, hfound⟩ := reads_word_space hdecl (by decide) rest
    have htail : tail = "macro".toList ++ ' ' :: rest := hrest.symm
    rw [← htail] at hfound
    have hspace : Reads (' ' :: tail) (macroWord :: found) comment' := .blank (by decide) hfound
    obtain ⟨found', comment'', hfound', hline⟩ := reads_word_space hpub (by decide) tail
    have hsame' : found' = macroWord :: found := hfound'.eq.1.symm.trans hspace.eq.1
    have heq : line = "pub".toList ++ ' ' :: tail := hstrip
    rw [← heq, hsame'] at hline
    exact .inr ⟨found, hsame hline⟩

/-! ### The formatted line -/

/-- A trimmed line that is not empty and no comment has lexemes. -/
theorem Reads.ne_nil (h : Reads line lexemes comment) (hne : line ≠ []) (htrimmed : Trimmed line)
    (hcomment : startsComment line = false) : lexemes ≠ [] := by
  cases h with
  | done => exact absurd rfl hne
  | comment h =>
    rw [h] at hcomment
    cases hcomment
  | blank hc _ =>
    rw [htrimmed.1 _ rfl] at hc
    cases hc
  | lexeme _ _ => exact cons_ne_nil _ _

theorem spaceAt_zero (lexemes : List Lexeme) : spaceAt lexemes 0 = false := by
  unfold spaceAt
  split
  · rfl
  · rfl

theorem head_ending (comment : Option Text) : (ending comment).head? ≠ some '}' := by
  cases comment with
  | none => simp [ending]
  | some comment => simp [ending]

section

variable {line : Text} {lexemes : List Lexeme} {comment : Option Text}

section

variable (h : Reads line lexemes comment)
include h

theorem trimmed_formatted (hcode : lexemes ≠ []) (htrimmed : Trimmed line) :
    Trimmed (render lexemes ++ ending comment) := by
  constructor
  · intro c hc
    obtain ⟨l, rest, rfl⟩ := exists_cons_of_ne_nil hcode
    obtain ⟨d, text, htext, hspace, -⟩ := (h.shaped l mem_cons_self).head
    rw [render_eq, renderFrom_cons, htext] at hc
    obtain rfl := some.inj hc
    exact hspace
  · intro c hc
    have hline : line ≠ [] := by
      rintro rfl
      exact hcode h.nil.1
    obtain ⟨d, hd⟩ := ne_none_iff_exists'.mp (mt getLast?_eq_none_iff.mp hline)
    have hspace := htrimmed.2 d hd
    rw [render_eq, getLast_formatted (h.last d hd hspace)] at hc
    obtain rfl := some.inj hc
    exact hspace

theorem formatted_ne_nil (hcode : lexemes ≠ []) : render lexemes ++ ending comment ≠ [] := by
  obtain ⟨l, rest, rfl⟩ := exists_cons_of_ne_nil hcode
  obtain ⟨d, text, htext, -⟩ := (h.shaped l mem_cons_self).head
  rw [render_eq, renderFrom_cons, htext]
  exact cons_ne_nil _ _

theorem closes_formatted : leadingCloses (render lexemes ++ ending comment) = closers lexemes :=
  leadingCloses_formatted (head_ending comment) drop_zero (spaceAt_zero lexemes) h.shaped

/-- The characters of the lexemes and of the comment are the line's. -/
theorem Reads.mem :
    (∀ l ∈ lexemes, ∀ c ∈ l.text, c ∈ line) ∧ ∀ text ∈ comment, ∀ c ∈ text, c ∈ line := by
  induction h with
  | done => exact ⟨fun _ h => (nomatch h), fun _ h => (nomatch h)⟩
  | comment _ =>
    refine ⟨fun _ h => (nomatch h), fun text htext c hc => ?_⟩
    rwa [← some.inj htext] at hc
  | blank _ _ ih =>
    exact ⟨fun l hl c hc => mem_cons_of_mem _ (ih.1 l hl c hc),
      fun text htext c hc => mem_cons_of_mem _ (ih.2 text htext c hc)⟩
  | lexeme _ _ ih =>
    refine ⟨fun l hl c hc => ?_, fun text htext c hc =>
      mem_append_right _ (ih.2 text htext c hc)⟩
    rcases mem_cons.mp hl with rfl | hl
    · exact mem_append_left _ hc
    · exact mem_append_right _ (ih.1 l hl c hc)

theorem mem_formatted {c : Char} (hc : c ∈ render lexemes ++ ending comment) :
    c = ' ' ∨ c ∈ line := by
  rcases mem_append.mp hc with hc | hc
  · obtain ⟨entry, hentry, hc⟩ := mem_flatMap.mp hc
    rcases mem_append.mp hc with hc | hc
    · split at hc
      · exact .inl (mem_singleton.mp hc)
      · cases hc
    · exact .inr (h.mem.1 _ (fst_mem_of_mem_zipIdx hentry) c hc)
  · cases comment with
    | none => cases hc
    | some text =>
      rcases mem_cons.mp hc with rfl | hc
      · exact .inl rfl
      · exact .inr (h.mem.2 text rfl c hc)

end

end

end Axiomc.Formatter
