import Axiomc.Framing.Stream

/-!
# What the reader consumes, and what the writer writes

`readMessage_consumes`: a successful call takes one header block, which is the lines up to and
including the first blank one, and as many bytes as the one `Content-Length` header among them
declares; whatever follows is left.

`readMessage_writeMessage`: a frame of `write_message` is such a block with its body, whatever follows
it.  So a stream of frames is read back frame by frame (`session_frames`), since each call leaves
exactly the frames after its own.
-/

namespace Axiomc.Framing

open Foundation List Nat

/-! ### Header blocks -/

/-- A line with the line feed that ends it. -/
def IsLine (line : Bytes) : Prop := ∃ start, line = start ++ [10] ∧ (10 : UInt8) ∉ start

/-- The line that ends a header block. -/
def Blank (line : Bytes) : Prop := line = [10] ∨ line = [13, 10]

/-- The body length a header line declares, if it is a `Content-Length` header. -/
def declaredLength (line : Bytes) : Option Nat :=
  match (decodeUtf8 (stripLast 13 (stripLast 10 line))).bind (splitOnce ':') with
  | some (name, value) =>
    if eqIgnoreAsciiCase (trim name) "Content-Length".toList then parseU64 (trim value) else none
  | none => none

/-- The bytes are one header block that declares `length`. -/
def HeaderBlock (block : Bytes) (length : Nat) : Prop :=
  ∃ (lines : List Bytes) (blank : Bytes), block = lines.flatten ++ blank ∧
    (∀ line ∈ lines, IsLine line ∧ ¬ Blank line) ∧ Blank blank ∧
    lines.filterMap declaredLength = [length]

/-! ### Lines -/

variable {line : Bytes} {protocol : String} {input' : Input} {host : Host} {trimmed body : Text}

theorem headerLine_eq_some {bytes : Bytes} (h : headerLine protocol bytes = .ok (some line)) :
    IsLine line ∧ bytes = line ++ afterLine bytes := by
  unfold headerLine at h
  split at h
  next n hnewline =>
    split at h
    · cases h
    · obtain ⟨before, after, rfl, hbefore, rfl⟩ := findIdx?_eq_some_iff_append.mp hnewline
      have hline : line = before ++ [10] := by
        rw [← Option.some.inj (Except.ok.inj h), take_length_add_append]
        rfl
      refine ⟨⟨before, hline, hbefore⟩, ?_⟩
      rw [afterLine, hnewline, hline]
      simp
  next =>
    split at h
    · cases h
    · split at h <;> cases h

variable {input : Input}

/-- A line that is read is the next one of the input. -/
theorem readHeaderLine_eq_some (h : exec (readHeaderLine protocol) input = (.ok (some line), input')) :
    IsLine line ∧ contents input = line ++ contents input' := by
  obtain ⟨hresult, hleft⟩ := readLineFrom_eq protocol input [] not_mem_nil (zero_le _)
  rw [exec_readHeaderLine] at h
  rw [h] at hresult hleft
  obtain ⟨hline, hsplit⟩ := headerLine_eq_some hresult.symm
  refine ⟨hline, ?_⟩
  rw [hleft (by simp)]
  exact hsplit

variable {rest : Bytes}

/-- The next line of the input is read, when it is short enough. -/
theorem readHeaderLine_of_line (protocol : String) (start : Bytes)
    (hstart : (10 : UInt8) ∉ start) (hshort : start.length + 1 ≤ maxHeaderLineBytes)
    (hbytes : contents input = start ++ 10 :: rest) :
    ∃ input', exec (readHeaderLine protocol) input = (.ok (some (start ++ [10])), input') ∧
      contents input' = rest := by
  have hnewline : (contents input).findIdx? (· == 10) = some start.length :=
    findIdx?_eq_some_iff_append.mpr ⟨start, rest, hbytes, hstart, rfl⟩
  obtain ⟨hresult, hleft⟩ := readLineFrom_eq protocol input [] not_mem_nil (zero_le _)
  rw [nil_append] at hresult hleft
  have hline : headerLine protocol (contents input) = .ok (some (start ++ [10])) := by
    simp only [headerLine, hnewline, if_neg (Nat.not_lt.mpr hshort)]
    rw [hbytes, take_length_add_append]
    rfl
  rw [hline] at hresult
  rw [hresult] at hleft
  refine ⟨(readLineFrom protocol [] input).2, ?_, ?_⟩
  · rw [exec_readHeaderLine, ← hresult]
  · rw [hleft (by simp), afterLine, hnewline]
    simp only [hbytes]
    simp

/-- A line that trims to nothing is blank, and no other line does. -/
theorem blank_iff (h : IsLine line) : stripLast 13 (stripLast 10 line) = [] ↔ Blank line := by
  obtain ⟨start, rfl, hstart⟩ := h
  have hfirst : stripLast 10 (start ++ [10]) = start := by simp [stripLast]
  rw [hfirst]
  constructor
  · intro hnil
    unfold stripLast at hnil
    split at hnil
    next hlast =>
      obtain ⟨before, rfl⟩ := getLast?_eq_some_iff.mp hlast
      rw [dropLast_concat] at hnil
      rw [hnil]
      exact .inr rfl
    next =>
      rw [hnil]
      exact .inl rfl
  · intro hblank
    rcases hblank with hblank | hblank
    · have : start = [] := by simpa using hblank
      rw [this]
      rfl
    · have : start ++ [10] = [13] ++ [10] := hblank
      have : start = [13] := append_cancel_right this
      rw [this]
      rfl

/-! ### What a successful call consumes -/

theorem trimHeaderLine_eq_ok : trimHeaderLine host protocol line = .ok trimmed ↔
      decodeUtf8 (stripLast 13 (stripLast 10 line)) = some trimmed := by
  unfold trimHeaderLine
  dsimp only
  split
  next text hdecode => rw [hdecode, Except.ok.injEq, Option.some.injEq]
  next hdecode => simp [hdecode]

theorem trimmed_isEmpty_iff
    (hline : IsLine line) (h : trimHeaderLine host protocol line = .ok trimmed) :
    trimmed.isEmpty = true ↔ Blank line := by
  rw [trimHeaderLine_eq_ok, decodeUtf8_eq_some_iff] at h
  rw [← blank_iff hline, ← h, List.isEmpty_iff]
  constructor
  · rintro rfl
    rfl
  · intro hnil
    exact encodeUtf8_injective hnil

/-- What one header adds to the declared lengths. -/
theorem readHeader_declares
    {declared declared' : Option Nat} (htrim : trimHeaderLine host protocol line = .ok trimmed)
    (h : readHeader protocol declared trimmed = .ok declared') :
    declared'.toList = declared.toList ++ (declaredLength line).toList := by
  rw [trimHeaderLine_eq_ok] at htrim
  simp only [declaredLength, htrim, Option.bind_some]
  unfold readHeader at h
  split at h
  · cases h
  next name value hsplit =>
    simp only [hsplit]
    split at h
    · cases h
    split at h
    next hname =>
      rw [if_pos hname]
      unfold readContentLength at h
      split at h
      · cases h
      next hnone =>
        have hdeclared : declared = none := by simpa using hnone
        split at h
        · cases h
        next length hparse =>
          split at h
          · cases h
          · rw [← Except.ok.inj h, hdeclared, hparse]
            rfl
    next hname =>
      rw [if_neg hname, ← Except.ok.inj h]
      simp

/-- **The header loop.**  It takes the lines up to the first blank one, and the length it returns is
the one they declare.  The induction is on the headers still allowed. -/
theorem readHeaders_consumes (allowed : Nat) :
    ∀ {headerBytes : Nat} {declared final : Option Nat} {rawLine : Bytes} {input input' : Input},
      IsLine rawLine → exec (readHeaders host protocol allowed headerBytes declared rawLine) input =
        (.ok final, input') →
      ∃ (lines : List Bytes) (blank : Bytes),
        rawLine ++ contents input = lines.flatten ++ blank ++ contents input' ∧
        (∀ line ∈ lines, IsLine line ∧ ¬ Blank line) ∧ Blank blank ∧
        final.toList = declared.toList ++ lines.filterMap declaredLength := by
  have hresult : ∀ {α : Type} {x : Except Diagnostic α} {a : α} {input input' : Input},
      exec (fromResult x) input = (.ok a, input') → x = .ok a ∧ input' = input := by
    intro α x a input input' h
    cases x with
    | ok b =>
      cases h
      exact ⟨rfl, rfl⟩
    | error e => cases h
  induction allowed using Nat.strongRecOn with
  | _ allowed ih =>
    intro headerBytes declared final rawLine input input' hline h
    rw [readHeaders] at h
    split at h
    · cases h
    rw [exec_bind_eq_ok] at h
    obtain ⟨trimmed, t, htrim, h⟩ := h
    obtain ⟨htrimmed, rfl⟩ := hresult htrim
    split at h
    next hempty =>
      cases h
      exact ⟨[], rawLine, rfl, by simp, (trimmed_isEmpty_iff hline htrimmed).mp hempty, by simp⟩
    next hheader =>
      have hnotBlank : ¬ Blank rawLine := fun hblank =>
        hheader ((trimmed_isEmpty_iff hline htrimmed).mpr hblank)
      cases allowed with
      | zero => cases h
      | succ allowed =>
        simp only [exec_bind_eq_ok] at h
        obtain ⟨declared', t, hread, nextLine, t', hnext, h⟩ := h
        obtain ⟨hdeclares, rfl⟩ := hresult hread
        cases nextLine with
        | none => cases h
        | some nextLine =>
          obtain ⟨hnextLine, hcontents⟩ := readHeaderLine_eq_some hnext
          dsimp only at h
          split at h
          · cases h
          obtain ⟨lines, blank, hbytes, hlines, hblank, hfinal⟩ := ih allowed (lt_succ_self _) hnextLine h
          refine ⟨rawLine :: lines, blank, ?_, ?_, hblank, ?_⟩
          · rw [hcontents, hbytes]
            simp
          · intro line hmem
            rcases mem_cons.mp hmem with rfl | hmem
            · exact ⟨hline, hnotBlank⟩
            · exact hlines line hmem
          · rw [hfinal, readHeader_declares htrimmed hdeclares, filterMap_cons]
            cases declaredLength rawLine <;> simp

theorem readBodyText_consumes {contentLength : Option Nat}
    (h : exec (readBodyText host protocol contentLength) input = (.ok (some body), input')) :
    contentLength = some (encodeUtf8 body).length ∧
      contents input = encodeUtf8 body ++ contents input' := by
  cases contentLength with
  | none => cases h
  | some length =>
    unfold readBodyText at h
    dsimp only at h
    split at h
    · cases h
    rw [exec_bind_eq_ok] at h
    obtain ⟨bytes, t, hread, h⟩ := h
    obtain ⟨htaken, hleft⟩ := readExact_eq length input
    obtain ⟨rfl, rfl⟩ : bytes = (readExact length input).1 ∧ t = (readExact length input).2 := by
      cases hread
      exact ⟨rfl, rfl⟩
    rw [htaken] at h
    split at h
    · cases h
    next bytes hbytes =>
      split at hbytes
      next hlength =>
        split at h
        next text hdecode =>
          cases h
          rw [decodeUtf8_eq_some_iff] at hdecode
          rw [hdecode, ← Option.some.inj hbytes, hleft, take_append_drop, length_take_of_le hlength]
          exact ⟨rfl, rfl⟩
        · cases h
      · cases hbytes

/-- **Consumption.**  A successful call takes one header block and the bytes it declares. -/
theorem readMessage_consumes (h : exec (readMessage host protocol) input = (.ok (some body), input')) :
    ∃ block, HeaderBlock block (encodeUtf8 body).length ∧
      contents input = block ++ encodeUtf8 body ++ contents input' := by
  unfold readMessage at h
  rw [exec_bind_eq_ok] at h
  obtain ⟨first, t, hfirst, h⟩ := h
  cases first with
  | none => cases h
  | some firstLine =>
    obtain ⟨hline, hcontents⟩ := readHeaderLine_eq_some hfirst
    rw [exec_bind_eq_ok] at h
    obtain ⟨contentLength, t', hheaders, h⟩ := h
    obtain ⟨lines, blank, hbytes, hlines, hblank, hfinal⟩ := readHeaders_consumes _ hline hheaders
    obtain ⟨hlength, hbody⟩ := readBodyText_consumes h
    refine ⟨lines.flatten ++ blank, ⟨lines, blank, rfl, hlines, hblank, ?_⟩, ?_⟩
    · rw [hlength] at hfinal
      simpa using hfinal.symm
    · rw [hcontents, hbytes, hbody, append_assoc _ (encodeUtf8 body)]

/-! ### Reading a frame back -/

/-- The header `write_message` puts out, with the carriage return that ends it. -/
def lengthHeader (length : Nat) : Text :=
  "Content-Length: ".toList ++ toDigits 10 length ++ ['\r']

variable {length : Nat}

theorem ascii_of_mem_lengthHeader {c : Char} (h : c ∈ lengthHeader length) :
    c.toNat < 128 ∧ c ≠ '\n' := by
  have hfixed : ∀ c ∈ "Content-Length: ".toList ++ ['\r'], c.toNat < 128 ∧ c ≠ '\n' := by
    have hall : ("Content-Length: ".toList ++ ['\r']).all
        (fun c => decide (c.toNat < 128 ∧ c ≠ '\n')) = true := by decide
    exact fun c hc => of_decide_eq_true (all_eq_true.mp hall c hc)
  unfold lengthHeader at h
  simp only [mem_append] at h
  rcases h with (h | h) | h
  · exact hfixed c (mem_append_left _ h)
  · have hdigit := isDigit_of_mem_toDigits (by omega) (by omega) h
    simp only [Char.isDigit, Bool.and_eq_true, decide_eq_true_eq] at hdigit
    have hsmall : c.toNat ≤ 57 := hdigit.2
    refine ⟨by omega, ?_⟩
    rintro rfl
    exact absurd hdigit.1 (by decide)
  · exact hfixed c (mem_append_right _ h)

theorem length_lengthHeader (h : length ≤ maxBodyBytes) :
    (encodeUtf8 (lengthHeader length)).length ≤ 25 := by
  have hdigits : (toDigits 10 length).length ≤ 8 := by
    rw [length_toDigits_le_iff (by omega) (by omega)]
    exact Nat.lt_of_le_of_lt h (by decide)
  have hfixed : ("Content-Length: ".toList).length = 16 := rfl
  rw [encodeUtf8_ascii fun c hc => (ascii_of_mem_lengthHeader hc).1, length_map]
  unfold lengthHeader
  rw [length_append, length_append, length_singleton]
  omega

theorem writeMessage_eq (body : Text) : writeMessage body =
      encodeUtf8 (lengthHeader (encodeUtf8 body).length) ++ 10 :: ([13] ++ 10 :: encodeUtf8 body) := by
  have hend : encodeUtf8 "\r\n\r\n".toList = encodeUtf8 ['\r'] ++ [10, 13, 10] := by decide
  unfold writeMessage lengthHeader
  simp only [encodeUtf8_append, hend, append_assoc, cons_append, nil_append]

/-- The header that is read is the one that was written. -/
theorem trimHeaderLine_lengthHeader (host : Host) (protocol : String) (length : Nat) :
    trimHeaderLine host protocol (encodeUtf8 (lengthHeader length) ++ [10]) =
      .ok ("Content-Length: ".toList ++ toDigits 10 length) := by
  have hreturn : encodeUtf8 ['\r'] = [13] := by decide
  have hfeed : ∀ bytes : Bytes, stripLast 10 (bytes ++ [10]) = bytes := by simp [stripLast]
  have hcarriage : ∀ bytes : Bytes, stripLast 13 (bytes ++ [13]) = bytes := by simp [stripLast]
  rw [trimHeaderLine_eq_ok, decodeUtf8_eq_some_iff, hfeed]
  unfold lengthHeader
  rw [encodeUtf8_append _ ['\r'], hreturn, hcarriage]

theorem readHeader_lengthHeader (protocol : String) (h : length ≤ maxBodyBytes) :
    readHeader protocol none ("Content-Length: ".toList ++ toDigits 10 length) =
      .ok (some length) := by
  have hsplit : splitOnce ':' ("Content-Length: ".toList ++ toDigits 10 length) =
      some ("Content-Length".toList, ' ' :: toDigits 10 length) := rfl
  have hname : trim "Content-Length".toList = "Content-Length".toList := by decide
  have hvalue : trim (' ' :: toDigits 10 length) = toDigits 10 length := by
    have hsolid : trim (toDigits 10 length) = toDigits 10 length := by
      apply trim_of_solid
      intro c hc
      exact isWhitespace_of_isDigit (isDigit_of_mem_toDigits (by omega) (by omega) hc)
    exact hsolid
  have hsame : eqIgnoreAsciiCase "Content-Length".toList "Content-Length".toList = true := by decide
  have hbound : length < 2 ^ 64 := Nat.lt_of_le_of_lt h (by decide)
  simp only [readHeader, hsplit, hname, hsame, readContentLength, hvalue,
    parseU64_toDigits hbound, if_neg (Nat.not_lt.mpr h)]
  rfl

/-- **One frame.**  Whatever follows it, a call gives its body and leaves what follows. -/
theorem readMessage_writeMessage (protocol : String) (hlength : (encodeUtf8 body).length ≤ maxBodyBytes)
    (hreserve : host.reserves (encodeUtf8 body).length = true)
    (hbytes : contents input = writeMessage body ++ rest) :
    ∃ input', exec (readMessage host protocol) input = (.ok (some body), input') ∧
      contents input' = rest := by
  have hshort := length_lengthHeader hlength
  have hline : maxHeaderLineBytes = 8192 := rfl
  have hblock : maxHeaderBytes = 65536 := rfl
  have hparts : contents input = encodeUtf8 (lengthHeader (encodeUtf8 body).length) ++
      10 :: ([13] ++ 10 :: (encodeUtf8 body ++ rest)) := by
    rw [hbytes, writeMessage_eq]
    simp
  -- the header, the blank line and the body are read one after the other
  obtain ⟨input₁, hfirst, hparts⟩ := readHeaderLine_of_line protocol _
    (newline_notMem_encodeUtf8 fun h => (ascii_of_mem_lengthHeader h).2 rfl) (by omega) hparts
  obtain ⟨input₂, hsecond, hparts⟩ := readHeaderLine_of_line protocol [13] (by decide)
    (by decide) hparts
  obtain ⟨htaken, hleft⟩ := readExact_eq (encodeUtf8 body).length input₂
  rw [hparts, drop_left] at hleft
  rw [hparts, take_left, if_pos (by rw [length_append]; omega)] at htaken
  have hdecode : decodeUtf8 (encodeUtf8 body) = some body := decodeUtf8_eq_some_iff.mpr rfl
  have hblank : trimHeaderLine host protocol ([13] ++ [10]) = .ok [] := by
    rfl
  have hheader := readHeader_lengthHeader protocol hlength
  have hwritten : ("Content-Length: ".toList ++
      toDigits 10 (encodeUtf8 body).length).isEmpty = false := rfl
  refine ⟨(readExact (encodeUtf8 body).length input₂).2, ?_, hleft⟩
  have hheaders : exec (readHeaders host protocol maxHeaderCount
      (encodeUtf8 (lengthHeader (encodeUtf8 body).length) ++ [10]).length none
      (encodeUtf8 (lengthHeader (encodeUtf8 body).length) ++ [10])) input₁ =
        (.ok (some (encodeUtf8 body).length), input₂) := by
    have hsmall : (encodeUtf8 (lengthHeader (encodeUtf8 body).length) ++ [10]).length ≤ 26 := by
      rw [length_append, length_singleton]
      omega
    rw [maxHeaderCount, readHeaders, if_neg (by omega), trimHeaderLine_lengthHeader]
    simp only [fromResult, hwritten, hheader, exec_bind, exec_pure, hsecond, Bool.false_eq_true,
      if_false]
    have htwo : (([13] : Bytes) ++ [10]).length = 2 := rfl
    rw [if_neg (by omega), readHeaders, if_neg (by omega)]
    rfl
  simp only [readMessage, exec_bind, hfirst, hheaders, readBodyText, hreserve, Bool.not_true,
    Bool.false_eq_true, if_false, exec_readBody, htaken, hdecode, exec_pure]

/-- **A stream of frames.**  The calls give the bodies in order, and then the end of the stream. -/
theorem session_frames (protocol : String) (hreserve : ∀ n ≤ maxBodyBytes, host.reserves n = true) :
    ∀ (bodies : List Text) (input : Input), (∀ body ∈ bodies, (encodeUtf8 body).length ≤ maxBodyBytes) →
      contents input = bodies.flatMap writeMessage → session host protocol (bodies.length + 1) input =
        bodies.map (fun body => .ok (some body)) ++ [.ok none] := by
  intro bodies
  induction bodies with
  | nil =>
    intro input _ hbytes
    have hnil : input = [] := by
      cases input with
      | nil => rfl
      | cons chunk rest => exact absurd (append_eq_nil_iff.mp hbytes).1 chunk.property
    rw [hnil]
    rfl
  | cons body bodies ih =>
    intro input hsmall hbytes
    have hlength := hsmall body mem_cons_self
    obtain ⟨input', hcall, hleft⟩ :=
      readMessage_writeMessage protocol hlength (hreserve _ hlength) hbytes
    have hrest := ih input' (fun b hb => hsmall b (mem_cons_of_mem _ hb)) hleft
    rw [length_cons, session, hcall]
    rw [hrest]
    rfl

/-- **The reader.**  It reads back what the writer wrote, in order and to the end; its results depend
on the bytes alone, as long as no header line is too long; and a successful call takes one header
block and the body bytes the block declares. -/
theorem reader_frames_and_chunks (host : Host) (protocol : String) :
    ((∀ n ≤ maxBodyBytes, host.reserves n = true) → ∀ (bodies : List Text) (input : Input),
      (∀ body ∈ bodies, (encodeUtf8 body).length ≤ maxBodyBytes) →
      contents input = bodies.flatMap writeMessage → session host protocol (bodies.length + 1) input =
        bodies.map (fun body => .ok (some body)) ++ [.ok none]) ∧
    (∀ (calls : Nat) (input input' : Input), contents input = contents input' →
      upToOversized protocol (session host protocol calls input) =
        upToOversized protocol (session host protocol calls input')) ∧
    (∀ (body : Text) (input input' : Input),
      exec (readMessage host protocol) input = (.ok (some body), input') →
      ∃ block, HeaderBlock block (encodeUtf8 body).length ∧
        contents input = block ++ encodeUtf8 body ++ contents input') :=
  ⟨session_frames protocol, session_upTo host protocol, fun _ _ _ h => readMessage_consumes h⟩

/-- Two frames, the first of them split inside its header. -/
theorem reader_two_frames : session ⟨fun _ => true, fun _ => "", ""⟩ "lsp" 3
        [⟨encodeUtf8 "Content-Le".toList, by decide⟩,
          ⟨encodeUtf8 "ngth: 2\r\n\r\n[]Content-Length: 4\r\n\r\n\"é\"".toList, by decide +kernel⟩] =
      [.ok (some "[]".toList), .ok (some "\"é\"".toList), .ok none] :=
  (reader_frames_and_chunks ⟨fun _ => true, fun _ => "", ""⟩ "lsp").1 (fun _ _ => rfl)
    ["[]".toList, "\"é\"".toList] _ (by decide +kernel) (by decide +kernel)

end Axiomc.Framing
