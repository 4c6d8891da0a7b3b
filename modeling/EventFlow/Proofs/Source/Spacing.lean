import EventFlow.Proofs.Source.Placement
import EventFlow.Proofs.Source.Scan

namespace EventFlow.Source

namespace Lexeme

variable {lexeme : Lexeme} {inside more : List Char}

-- The text is over, but the lexeme may not be: it is a line comment, or nothing closes it.
def isOpen (lexeme : Lexeme) : Bool :=
  match lexeme.kind with
  | .lineComment => true
  | .blockComment => !decide (['*', '/'] <:+: lexeme.text.drop 2)
  | .string => !literalStops '"' lexeme.text.tail
  | .character => !literalStops '\'' lexeme.text.tail
  | .newline | .blank | .splice | .identifier | .number | .punctuation | .stray => false

theorem blockCommentLength_closed (h : ¬ ['*', '/'] <:+: inside) (behind : List Char) :
    blockCommentLength (inside ++ '*' :: '/' :: behind) = inside.length + 2 := by
  induction inside with
  | nil => rfl
  | cons c inside ih =>
    have hinside : ¬ ['*', '/'] <:+: inside := fun hinfix => h (List.infix_cons hinfix)
    -- the closing does not begin at `c`
    have hopen : ∀ rest, c = '*' → inside ++ '*' :: '/' :: behind = '/' :: rest → False := by
      rintro rest rfl hrest
      cases inside with
      | nil => cases hrest
      | cons d inside =>
        obtain ⟨rfl, _⟩ := List.cons.inj hrest
        exact h ⟨[], inside, rfl⟩
    rw [List.cons_append, blockCommentLength.eq_3 c _ hopen, ih hinside, List.length_cons,
      Nat.add_right_comm]

-- What is neither open nor a slash ends at the end of the text also if a space or a comment
-- follows.
theorem EndsBefore.of_closed (h : lexeme.EndsBefore []) (hclosed : lexeme.isOpen = false)
    (hslash : lexeme ≠ ⟨.punctuation, ['/']⟩)
    (hmore : more.head? = some ' ' ∨ more.head? = some '/') : lexeme.EndsBefore more := by
  obtain ⟨kind, text⟩ := lexeme
  obtain ⟨c, taken, rfl, hfront⟩ := h
  rw [List.append_nil] at hfront
  refine ⟨c, taken, rfl, ?_⟩
  have happly : ∀ {other count}, front c taken = (other, count) →
      front c (taken ++ more) = (other, count) → front c (taken ++ more) = (kind, taken.length) :=
    fun htaken hall => hall.trans (htaken.symm.trans hfront)
  have hrun : ∀ inside : Char → Bool, inside ' ' = false → inside '/' = false →
      runLength inside (taken ++ more) = runLength inside taken := by
    intro inside hblank hmark
    refine runLength_append_of_head ?_
    rcases hmore with hmore | hmore
    · rw [hmore, Option.all_some, hblank]
      rfl
    · rw [hmore, Option.all_some, hmark]
      rfl
  cases rule c with
  | newline hc =>
    subst hc
    exact happly rfl rfl
  | blank hc h => exact happly (h taken) (h _)
  | punctuation h => exact happly (h taken) (h _)
  | stray hc h => exact happly (h taken) (h _)
  | identifier h =>
    refine happly (h taken) ?_
    rw [h, hrun isIdentifierPart rfl rfl]
  | number h =>
    refine happly (h taken) ?_
    rw [h, hrun isNumberPart rfl rfl]
  | string hc =>
    subst hc
    obtain ⟨rfl, _⟩ := Prod.mk.inj hfront
    have hstops : literalStops '"' taken := (Bool.not_eq_false' _).mp hclosed
    exact happly rfl (congrArg (Kind.string, ·) (literalLength_append (by decide) hstops))
  | character hc =>
    subst hc
    obtain ⟨rfl, _⟩ := Prod.mk.inj hfront
    have hstops : literalStops '\'' taken := (Bool.not_eq_false' _).mp hclosed
    exact happly rfl (congrArg (Kind.character, ·) (literalLength_append (by decide) hstops))
  | backslash hc =>
    subst hc
    cases backslash taken with
    | splice behind => exact happly rfl rfl
    | wideSplice behind => exact happly rfl rfl
    | mark hline hwide hmark =>
      obtain ⟨_, hnone⟩ := Prod.mk.inj (hfront.symm.trans hmark)
      obtain rfl := List.length_eq_zero_iff.mp hnone
      refine happly hmark ?_
      cases backslash more with
      | splice behind => simp at hmore
      | wideSplice behind => simp at hmore
      | mark _ _ h => exact h
  | slash hc =>
    subst hc
    cases slash taken with
    | line behind =>
      obtain ⟨rfl, _⟩ := Prod.mk.inj hfront
      cases hclosed
    | block behind =>
      obtain ⟨rfl, _⟩ := Prod.mk.inj hfront
      have hcloses : ['*', '/'] <:+: behind := of_decide_eq_true ((Bool.not_eq_false' _).mp hclosed)
      exact happly rfl
        (congrArg (fun count => (Kind.blockComment, count + 1)) (blockCommentLength_append hcloses))
    | mark hline hblock hmark =>
      obtain ⟨rfl, hnone⟩ := Prod.mk.inj (hfront.symm.trans hmark)
      rw [List.length_eq_zero_iff.mp hnone] at hslash
      exact absurd rfl hslash

-- The comment that `inside` makes.
def comment (inside : List Char) : Lexeme := ⟨.blockComment, '/' :: '*' :: (inside ++ ['*', '/'])⟩

theorem endsBefore_comment (h : ¬ ['*', '/'] <:+: inside) (behind : List Char) :
    (comment inside).EndsBefore behind := by
  have hlength : blockCommentLength (inside ++ ['*', '/'] ++ behind) =
      (inside ++ ['*', '/']).length := by
    rw [List.append_assoc, List.length_append]
    exact blockCommentLength_closed h behind
  refine ⟨'/', '*' :: (inside ++ ['*', '/']), rfl, ?_⟩
  exact congrArg (fun count => (Kind.blockComment, count + 1)) hlength

def space : Lexeme := ⟨.blank, [' ']⟩

theorem endsBefore_space (behind : List Char) : space.EndsBefore behind := ⟨' ', [], rfl, rfl⟩

-- All that keeps words apart does so as a space.
def evened (lexeme : Lexeme) : Lexeme := if lexeme.isSpace then space else lexeme

end Lexeme

-- A comment can follow the text: nothing is left open, and no slash is at the end.
def Complete (text : String) : Prop :=
  ∀ lexeme ∈ (Lexeme.scan text.toList).getLast?,
    lexeme.isOpen = false ∧ lexeme ≠ ⟨.punctuation, ['/']⟩

instance (text : String) : Decidable (Complete text) :=
  inferInstanceAs (Decidable (∀ lexeme ∈ (Lexeme.scan text.toList).getLast?, _))

theorem Complete.scan_append {text : String} (h : Complete text) {more : List Char}
    (hmore : more.head? = some ' ' ∨ more.head? = some '/') :
    Lexeme.scan (text.toList ++ more) = Lexeme.scan text.toList ++ Lexeme.scan more := by
  refine Lexeme.scan_append (fun lexeme hlexeme => ?_) fun _ hline => ?_
  · obtain ⟨before, hbefore⟩ := List.getLast?_eq_some_iff.mp hlexeme
    have hends : lexeme.EndsBefore [] := Lexeme.endsBefore_of_scan hbefore
    obtain ⟨hclosed, hslash⟩ := h lexeme hlexeme
    exact hends.of_closed hclosed hslash hmore
  · rw [hline] at hmore
    simp at hmore

namespace Placed

def evened (placed : Placed) : Placed := { placed with lexeme := placed.lexeme.evened }

end Placed

namespace Stream

theorem textOf_evened (line : List Placed) :
    Directive.textOf (line.map Placed.evened) = Directive.textOf line := by
  have hword : ∀ lexeme : Lexeme, lexeme.evened.isWord = lexeme.isWord := by
    rintro ⟨kind, text⟩
    cases kind <;> rfl
  have hwrite : ∀ (written : List Char) (lexeme : Lexeme),
      Directive.writeBackwards written lexeme.evened = Directive.writeBackwards written lexeme := by
    rintro written ⟨kind, text⟩
    cases kind <;> rfl
  have hlexemes : (line.map Placed.evened).map Placed.lexeme =
      (line.map Placed.lexeme).map Lexeme.evened := by
    rw [List.map_map, List.map_map]
    rfl
  simp only [Directive.textOf, hlexemes, List.dropWhile_map, Function.comp_def, hword,
    List.foldl_map, hwrite]

theorem token?_evened (tag : Option Nat) (placed : Placed) :
    Placed.token? tag placed.evened = Placed.token? tag placed := by
  obtain ⟨⟨kind, text⟩, line, offset⟩ := placed
  cases kind <;> rfl

theorem tokens_evened (tag : Option Nat) (line : List Placed) :
    (line.map Placed.evened).filterMap (Placed.token? tag) =
      line.filterMap (Placed.token? tag) := by
  rw [List.filterMap_map]
  exact List.filterMap_congr fun placed _ => token?_evened tag placed

theorem keeps_evened : Keeps Placed.evened id id 0 0 where
  token?_eq tag placed := by
    have htag : tag.map (· + 0) = tag := Option.map_id_apply
    rw [htag, Option.map_id_apply, token?_evened]
  isPunctuation_eq token c := rfl
  directiveOf_eq line first _ := by
    simp only [directiveOf, textOf_evened, tokens_evened]
    rfl

theorem ofLines_evened (lexemes : List Lexeme) :
    ofLines 0 0 (Placed.lines ((lexemes.map Lexeme.evened).map Placed.bare)) =
      ofLines 0 0 (Placed.lines (lexemes.map Placed.bare)) := by
  have hbare : (lexemes.map Lexeme.evened).map Placed.bare =
      (lexemes.map Placed.bare).map Placed.evened := by
    rw [List.map_map, List.map_map]
    rfl
  have hline : ∀ placed : Placed,
      placed.evened.lexeme.kind = .newline ↔ placed.lexeme.kind = .newline := by
    rintro ⟨⟨kind, text⟩, line, offset⟩
    cases kind <;> simp [Placed.evened, Lexeme.evened, Lexeme.isSpace, Lexeme.space]
  have hkeeps := keeps_evened.ofLines_map 0 0 (Placed.lines (lexemes.map Placed.bare))
  rw [List.map_id, List.map_id] at hkeeps
  rw [hbare, Placed.lines_map Placed.evened hline]
  exact hkeeps

-- A comment says what a space in its place would say.
theorem unplaced_comment {before : String} (hbefore : Complete before) {comment : String}
    (hcomment : ¬ ['*', '/'] <:+: comment.toList) (behind : String) :
    (ofText (before ++ "/*" ++ comment ++ "*/" ++ behind)).unplaced =
      (ofText (before ++ " " ++ behind)).unplaced := by
  have hcommented : Lexeme.scan (before ++ "/*" ++ comment ++ "*/" ++ behind).toList =
      Lexeme.scan before.toList ++
        Lexeme.comment comment.toList :: Lexeme.scan behind.toList := by
    have htext : (before ++ "/*" ++ comment ++ "*/" ++ behind).toList =
        before.toList ++ ((Lexeme.comment comment.toList).text ++ behind.toList) := by
      simp [Lexeme.comment]
    rw [htext, hbefore.scan_append (.inr rfl), (Lexeme.endsBefore_comment hcomment _).scan_eq]
  have hspaced : Lexeme.scan (before ++ " " ++ behind).toList =
      Lexeme.scan before.toList ++ Lexeme.space :: Lexeme.scan behind.toList := by
    have htext : (before ++ " " ++ behind).toList =
        before.toList ++ (Lexeme.space.text ++ behind.toList) := by
      simp [Lexeme.space]
    rw [htext, hbefore.scan_append (.inl rfl), (Lexeme.endsBefore_space _).scan_eq]
  have hevened : (Lexeme.scan (before ++ "/*" ++ comment ++ "*/" ++ behind).toList).map
      Lexeme.evened = (Lexeme.scan (before ++ " " ++ behind).toList).map Lexeme.evened := by
    rw [hcommented, hspaced, List.map_append, List.map_append]
    rfl
  rw [ofText_unplaced, ofText_unplaced, ← ofLines_evened, hevened, ofLines_evened]

end Stream

end EventFlow.Source
