import EventFlow.Proofs.Source.Lines

namespace EventFlow.Source

namespace Token

-- The tokens of code that pieces become, without their places.
def word (name : String) : Token := ⟨.identifier, name, 0, 0, none⟩

def mark (c : Char) : Token := ⟨.punctuation c, String.ofList [c], 0, 0, none⟩

@[simp] theorem isIdentifier_word (name : String) : (word name).isIdentifier = true := rfl

@[simp] theorem isIdentifier_mark (c : Char) : (mark c).isIdentifier = false := rfl

@[simp] theorem isPunctuation_word (name : String) (c : Char) :
    (word name).isPunctuation c = false := rfl

@[simp] theorem isPunctuation_mark (c d : Char) : (mark c).isPunctuation d = decide (c = d) := by
  simp [mark, isPunctuation]

@[simp] theorem text_word (name : String) : (word name).text = name := rfl

@[simp] theorem directive_word (name : String) : (word name).directive = none := rfl

@[simp] theorem directive_mark (c : Char) : (mark c).directive = none := rfl

end Token

namespace Piece

def placed (piece : Piece) : Placed := Placed.bare piece.lexeme

def token? : Piece → Option Token
  | word name => some (.word name)
  | mark c => some (.mark c)
  | gap => none

def tokensOf (pieces : List Piece) : List Token := pieces.filterMap token?

@[simp] theorem tokensOf_nil : tokensOf [] = [] := rfl

@[simp] theorem tokensOf_word (name : String) (rest : List Piece) :
    tokensOf (word name :: rest) = .word name :: tokensOf rest := rfl

@[simp] theorem tokensOf_mark (c : Char) (rest : List Piece) :
    tokensOf (mark c :: rest) = .mark c :: tokensOf rest := rfl

@[simp] theorem tokensOf_gap (rest : List Piece) : tokensOf (gap :: rest) = tokensOf rest := rfl

@[simp] theorem tokensOf_append (front rest : List Piece) :
    tokensOf (front ++ rest) = tokensOf front ++ tokensOf rest := List.filterMap_append

def namesOf (pieces : List Piece) : List String :=
  ((tokensOf pieces).filter Token.isIdentifier).map Token.text

@[simp] theorem namesOf_nil : namesOf [] = [] := rfl

@[simp] theorem namesOf_word (name : String) (rest : List Piece) :
    namesOf (word name :: rest) = name :: namesOf rest := rfl

@[simp] theorem namesOf_mark (c : Char) (rest : List Piece) :
    namesOf (mark c :: rest) = namesOf rest := rfl

@[simp] theorem namesOf_gap (rest : List Piece) : namesOf (gap :: rest) = namesOf rest := rfl

@[simp] theorem namesOf_append (front rest : List Piece) :
    namesOf (front ++ rest) = namesOf front ++ namesOf rest := by
  rw [namesOf, tokensOf_append, List.filter_append, List.map_append]
  rfl

theorem createdIn_tokensOf (pieces : List Piece) :
    Event.createdIn (tokensOf pieces) =
      NameSet.ofList ((namesOf pieces).filterMap Event.createdBy?) := by
  rw [namesOf, List.filterMap_map]
  rfl

theorem tokens_placed (pieces : List Piece) :
    (pieces.map placed).filterMap (Placed.token? none) = tokensOf pieces := by
  rw [List.filterMap_map, tokensOf]
  refine List.filterMap_congr fun piece _ => ?_
  cases piece with
  | word name =>
    simp [placed, Placed.bare, lexeme, Placed.token?, Placed.kind?, token?, Token.word]
  | mark c => rfl
  | gap => rfl

-- A text of lines, each with its line end.
def linesText (lines : List (List Piece)) : List Char :=
  lines.flatMap fun line => textOf line ++ ['\n']

theorem scan_linesText {lines : List (List Piece)} (h : ∀ line ∈ lines, Fits line) :
    Lexeme.scan (linesText lines) =
      lines.flatMap fun line => line.map lexeme ++ [⟨.newline, ['\n']⟩] := by
  induction lines with
  | nil =>
    rw [linesText, List.flatMap_nil, Lexeme.scan]
    rfl
  | cons line rest ih =>
    rw [List.forall_mem_cons] at h
    have hrest := ih h.2
    rw [linesText] at hrest ⊢
    rw [List.flatMap_cons, List.append_assoc, List.singleton_append, scan_textOf h.1, hrest,
      List.flatMap_cons, List.append_assoc, List.singleton_append]

theorem lines_append_newline (line : List Piece) (rest : List Placed) :
    Placed.lines (line.map placed ++ Placed.bare ⟨.newline, ['\n']⟩ :: rest) =
      line.map placed :: Placed.lines rest := by
  induction line with
  | nil => rfl
  | cons piece pieces ih =>
    have hkind : piece.placed.lexeme.kind ≠ .newline := by
      cases piece with
      | word name => exact fun h => nomatch h
      | mark c => exact fun h => nomatch h
      | gap => exact fun h => nomatch h
    rw [List.map_cons, List.cons_append, Placed.lines, if_neg hkind, ih]
    rfl

theorem lines_linesText (lines : List (List Piece)) :
    Placed.lines ((lines.flatMap fun line =>
      line.map lexeme ++ [⟨.newline, ['\n']⟩]).map Placed.bare) =
        lines.map (List.map placed) ++ [[]] := by
  induction lines with
  | nil => rfl
  | cons line rest ih =>
    rw [List.flatMap_cons, List.map_append, List.map_append, List.map_map, List.append_assoc,
      List.map_singleton, List.singleton_append]
    have hline := lines_append_newline line
    rw [List.map_cons, List.cons_append, ← ih, ← hline]
    rfl

-- What a text says that is put together from pieces.
theorem unplaced_ofText {text : String} {lines : List (List Piece)}
    (htext : text.toList = linesText lines) (h : ∀ line ∈ lines, Fits line) :
    (Stream.ofText text).unplaced = Stream.ofLines 0 0 (lines.map (List.map placed) ++ [[]]) := by
  rw [Stream.ofText_unplaced, htext, scan_linesText h, lines_linesText]

def opensDirective (line : List Piece) : Bool :=
  match tokensOf line with
  | token :: _ => token.isPunctuation '#'
  | [] => false

theorem opensDirective_placed (line : List Piece) :
    Stream.opensDirective (line.map placed) = opensDirective line := by
  rw [Stream.opensDirective, tokens_placed]
  rfl

theorem code_ofPieces (lines : List (List Piece)) :
    (Stream.ofLines 0 0 (lines.map (List.map placed) ++ [[]])).code =
      (lines.filter fun line => !opensDirective line).flatMap tokensOf := by
  have hopens : ∀ line, Stream.opensDirective (line.map placed) = opensDirective line :=
    opensDirective_placed
  rw [Stream.code_ofLines, List.filter_append, List.flatMap_append, List.filter_map,
    List.flatMap_map]
  simp only [Function.comp_def, opensDirective_placed, tokens_placed]
  exact List.append_nil _

theorem identifiers_ofPieces (lines : List (List Piece)) :
    (Stream.ofLines 0 0 (lines.map (List.map placed) ++ [[]])).identifiers =
      lines.flatMap namesOf := by
  rw [Stream.identifiers_ofLines, List.flatMap_append, List.flatMap_map]
  simp only [tokens_placed]
  exact List.append_nil _

theorem macros_ofPieces (lines : List (List Piece)) :
    (Stream.ofLines 0 0 (lines.map (List.map placed) ++ [[]])).directives.filterMap
      (Callable.macroOf? (Stream.ofLines 0 0 (lines.map (List.map placed) ++ [[]]))) =
        (lines.filter opensDirective).filterMap fun line =>
          Callable.macroOfLine? (line.map placed) := by
  have hmacros := Callable.macros_ofLines [] 0 (lines.map (List.map placed) ++ [[]]) rfl
  rw [List.length_nil] at hmacros
  rw [hmacros, List.filter_append, List.filterMap_append, List.filter_map, List.filterMap_map]
  simp only [Function.comp_def, opensDirective_placed]
  exact List.append_nil _

theorem exists_last {pieces : List Piece} (h : Fits pieces) (hne : pieces ≠ []) :
    ∃ front c, textOf pieces = front ++ [c] ∧ Text.isBlank c = false := by
  induction pieces with
  | nil => exact absurd rfl hne
  | cons piece pieces ih =>
    rw [textOf, List.flatMap_cons]
    cases pieces with
    | nil =>
      cases piece with
      | word name =>
        obtain ⟨front, c, hname, hc⟩ := exists_last_of_isIdentifier h.1
        refine ⟨front, c, ?_, isBlank_of_isIdentifierPart hc⟩
        rw [← hname, List.flatMap_nil, List.append_nil]
        rfl
      | mark c =>
        have hc : c ∈ plainMarks := h.1
        refine ⟨[], c, rfl, ?_⟩
        simp only [plainMarks, List.mem_cons, List.not_mem_nil, or_false] at hc
        rcases hc with rfl | rfl | rfl | rfl | rfl | rfl | rfl <;> rfl
      | gap => exact absurd rfl h.1.1
    | cons next pieces =>
      have hrest : Fits (next :: pieces) := by
        cases piece with
        | word name => exact h.2.2
        | mark c => exact h.2
        | gap => exact h.2
      obtain ⟨front, c, htext, hc⟩ := ih hrest (List.cons_ne_nil _ _)
      refine ⟨piece.text ++ front, c, ?_, hc⟩
      rw [← textOf, htext, List.append_assoc]

theorem foldl_writeBackwards {pieces : List Piece} (h : Fits pieces) {written : List Char}
    (hgap : pieces.head? = some gap → written.head? ≠ some ' ') :
    (pieces.map lexeme).foldl Directive.writeBackwards written =
      (textOf pieces).reverse ++ written := by
  induction pieces generalizing written with
  | nil => rfl
  | cons piece pieces ih =>
    rw [List.map_cons, List.foldl_cons, textOf, List.flatMap_cons, List.reverse_append,
      List.append_assoc]
    cases piece with
    | word name =>
      obtain ⟨hname, _, hrest⟩ := h
      have hwritten : Directive.writeBackwards written (word name).lexeme =
          name.toList.reverse ++ written := rfl
      refine ih hrest fun _ hspace => ?_
      obtain ⟨front, c, hlast, hc⟩ := exists_last_of_isIdentifier hname
      rw [hwritten, hlast, List.reverse_append, List.reverse_singleton, List.singleton_append,
        List.cons_append, List.head?_cons, Option.some_inj] at hspace
      subst hspace
      revert hc
      decide
    | mark c =>
      refine ih h.2 fun _ hspace => ?_
      have hc : c ∈ plainMarks := h.1
      obtain rfl : c = ' ' := Option.some.inj hspace
      revert hc
      decide
    | gap =>
      obtain ⟨⟨_, hnext⟩, hrest⟩ := h
      have hspace : Directive.writeBackwards written gap.lexeme = ' ' :: written := by
        cases written with
        | nil => rfl
        | cons c rest =>
          have hc : c ≠ ' ' := fun heq => hgap rfl (congrArg some heq)
          simp [Directive.writeBackwards, lexeme, Lexeme.isWord, Lexeme.isSpace, hc]
      rw [hspace]
      exact ih hrest fun hhead => absurd hhead hnext

-- The text of a preprocessor line is the line as it is written.
theorem directive_textOf {line : List Piece} (h : Fits line) (hopens : opensDirective line)
    (hhead : line.head? ≠ some gap) :
    Directive.textOf (line.map placed) = String.ofList (textOf line) := by
  have hne : line ≠ [] := by
    rintro rfl
    cases hopens
  have hlexemes : (line.map placed).map Placed.lexeme = line.map lexeme := by
    rw [List.map_map]
    rfl
  have hstart : (line.map lexeme).dropWhile (fun lexeme => !lexeme.isWord) = line.map lexeme := by
    cases line with
    | nil => rfl
    | cons piece rest =>
      cases piece with
      | word name => rfl
      | mark c => rfl
      | gap => exact absurd rfl hhead
  obtain ⟨front, c, htext, hc⟩ := exists_last h hne
  have hfold := @foldl_writeBackwards line h [] fun hgap => absurd hgap hhead
  rw [Directive.textOf, hlexemes, hstart, hfold, htext, List.append_nil, List.reverse_append,
    List.reverse_singleton, List.singleton_append, List.dropWhile_cons_of_neg (by simp [hc]),
    List.reverse_cons, List.reverse_reverse]

theorem definedName?_define {name : String} {more : List Char} (hname : isIdentifier name)
    (hmore : more.head?.all (fun c => !isIdentifierPart c)) :
    Directive.definedName? (String.ofList ("#define ".toList ++ (name.toList ++ more))) =
      some (name, more) := by
  obtain ⟨c, rest, hchars, hstart, hrest⟩ := exists_chars_of_isIdentifier hname
  have hblank : Text.isBlank c = false :=
    isBlank_of_isIdentifierPart (isIdentifierPart_of_start hstart)
  have hkeyword : Directive.afterKeyword? "define" ("#define ".toList ++ (name.toList ++ more)) =
      some (' ' :: (name.toList ++ more)) := rfl
  have hspace : Text.dropBlankStart (' ' :: (name.toList ++ more)) = c :: (rest ++ more) := by
    rw [Text.dropBlankStart, List.dropWhile_cons_of_pos (by decide), hchars, List.cons_append,
      List.dropWhile_cons_of_neg (by simp [hblank])]
  rw [Directive.definedName?, String.toList_ofList, hkeyword, Option.bind_some]
  simp only [hspace, takeWhile_run hrest hmore, dropWhile_run hrest hmore, hstart, if_true]
  rw [← hchars, String.ofList_toList]
  rfl

theorem definition?_define {directive : Directive} {name : String} {more : List Piece}
    (hname : isIdentifier name) (hmore : Fits more)
    (hword : ∀ other, more.head? ≠ some (word other))
    (htext : directive.text = String.ofList ("#define ".toList ++ (name.toList ++ textOf more))) :
    ∃ body, directive.definition? = some ⟨name, more.head? = some (mark '('), body⟩ := by
  rw [Directive.definition?, htext, definedName?_define hname (head?_textOf hmore hword)]
  cases more with
  | nil => exact ⟨_, rfl⟩
  | cons piece more =>
    cases piece with
    | word other => exact absurd rfl (hword other)
    | mark c =>
      rw [List.head?_cons]
      by_cases hc : c = '('
      · subst hc
        exact ⟨_, rfl⟩
      · refine ⟨c :: textOf more, ?_⟩
        simp [textOf, Piece.text, hc]
    | gap => exact ⟨_, rfl⟩

theorem macroOfLine?_define {name : String} {more : List Piece}
    (h : Fits (mark '#' :: word "define" :: gap :: word name :: more)) :
    Callable.macroOfLine?
      ((mark '#' :: word "define" :: gap :: word name :: more).map placed) =
        some ⟨name, if more.head? = some (mark '(') then .functionMacro else .objectMacro,
          Event.createdIn (tokensOf more), 0⟩ := by
  have htext := directive_textOf h rfl (by simp)
  obtain ⟨_, _, _, _, hname, hword, hmore⟩ := h
  obtain ⟨body, hdefinition⟩ := @definition?_define
    (Stream.directiveOf ((mark '#' :: word "define" :: gap :: word name :: more).map placed) 0)
    name more hname hmore hword htext
  rw [Callable.macroOfLine?, hdefinition, tokens_placed]
  simp only [Option.map_some, decide_eq_true_eq]
  rfl

end Piece

end EventFlow.Source
