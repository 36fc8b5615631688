import LetBlocks.Diagnostic
import LetBlocks.Node

/-!
A header is `let ( d , … , d ) {` with a declaration `name` or `name = initializer` for each
`d`, and perhaps a comma after the last. Trivia may stand between any two of these tokens. An
initializer is everything up to the first comma or closing parenthesis outside all of its own
brackets; its brackets must match, and it must hold more than trivia.

A `let` that is followed by an opening parenthesis and still does not start a header is
reported and then passed through like any other word. Each reader takes the tokens after what
was read before and returns the tokens it leaves, or the one diagnostic that says why there is
no header.
-/

namespace LetBlocks

namespace Header

def isComma (t : Token) : Bool := t.isPunct [Byte.comma]

def isOpenParen (t : Token) : Bool := t.isPunct [Byte.openParen]

def isCloseParen (t : Token) : Bool := t.isPunct [Byte.closeParen]

def isOpenCurly (t : Token) : Bool := t.isPunct [Byte.openCurly]

def isEquals (t : Token) : Bool := t.isPunct [Byte.equals]

structure InitializerRead where
  tokens : List Token
  separator : Token
  rest : List Token

/-- Reads an initializer of a header that starts with `letToken`. `opened` are its brackets
that are still open, innermost first, and `seen` its tokens so far, latest first. -/
def readInitializer (letToken : Token) (opened : List Bracket) (seen : List Token) :
    List Token → Except Diagnostic InitializerRead
  | [] => .error (Problem.openHeader.diagnostic letToken.span)
  | t :: rest =>
    if opened = [] ∧ (isComma t || isCloseParen t) = true then
      .ok { tokens := seen.reverse, separator := t, rest }
    else
      match t.opens?, t.closes? with
      | some bracket, _ => readInitializer letToken (bracket :: opened) (t :: seen) rest
      | none, some bracket =>
        if opened.head? = some bracket then
          readInitializer letToken opened.tail (t :: seen) rest
        else .error ((Problem.unbalancedHeader t).diagnostic t.span)
      | none, none => readInitializer letToken opened (t :: seen) rest

/-- A declaration, the tokens passed for it, the comma or parenthesis after it, and the tokens
after that. -/
structure DeclarationRead where
  declaration : Declaration
  used : List Token
  separator : Token
  rest : List Token

def readDeclaration (letToken name : Token) (ts : List Token) :
    Except Diagnostic DeclarationRead :=
  let gap := ts.takeWhile Token.isTrivia
  match ts.dropWhile Token.isTrivia with
  | [] => .error (Problem.openHeader.diagnostic letToken.span)
  | separator :: rest =>
    if isEquals separator then
      match readInitializer letToken [] [] rest with
      | .error d => .error d
      | .ok read =>
        if read.tokens.all Token.isTrivia then
          .error ((Problem.initializerExpected name).diagnostic separator.span)
        else
          let tokens := name :: gap ++ separator :: read.tokens
          .ok
            { declaration := { name, initializer := some read.tokens, tokens }
              used := tokens
              separator := read.separator
              rest := read.rest }
    else if isComma separator || isCloseParen separator then
      .ok { declaration := { name, tokens := [name] }, used := name :: gap, separator, rest }
    else .error ((Problem.separatorExpected name separator).diagnostic separator.span)

theorem length_readInitializer_lt {letToken : Token} {opened : List Bracket}
    {seen ts : List Token} {read : InitializerRead}
    (h : readInitializer letToken opened seen ts = .ok read) :
    read.rest.length < ts.length := by
  fun_induction readInitializer letToken opened seen ts with
  | case1 => cases h
  | case2 => cases h; exact Nat.lt_succ_self _
  | case5 => cases h
  | _ => rename_i ih; exact Nat.lt_succ_of_lt (ih h)

theorem length_readDeclaration_lt {letToken name : Token} {ts : List Token}
    {read : DeclarationRead} (h : readDeclaration letToken name ts = .ok read) :
    read.rest.length < ts.length := by
  have hdrop : (ts.dropWhile Token.isTrivia).length ≤ ts.length :=
    (List.dropWhile_suffix _).length_le
  unfold readDeclaration at h
  split at h
  · cases h
  · next separator rest hts =>
    rw [hts] at hdrop
    simp only [List.length_cons] at hdrop
    split at h
    · split at h
      · cases h
      · next read' hread =>
        have hlt := length_readInitializer_lt hread
        split at h
        · cases h
        · cases h
          simp only
          omega
    · split at h
      · cases h
        simp only
        omega
      · cases h

/-- The declarations of a header, its tokens through the closing parenthesis, that parenthesis,
and the tokens after it. -/
structure ListRead where
  declarations : List Declaration
  used : List Token
  closeParen : Token
  rest : List Token

/-- Reads declarations up to the closing parenthesis of a header. `declared` and `seen` are the
declarations and the tokens read before, latest first. -/
def readDeclarations (letToken : Token) (declared : List Declaration) (seen : List Token)
    (ts : List Token) : Except Diagnostic ListRead :=
  let gap := ts.takeWhile Token.isTrivia
  match _h : ts.dropWhile Token.isTrivia with
  | [] => .error (Problem.openHeader.diagnostic letToken.span)
  | t :: rest =>
    let seen := gap.reverse ++ seen
    if isCloseParen t then
      if declared = [] then .error (Problem.noNames.diagnostic t.span)
      else
        .ok
          { declarations := declared.reverse
            used := (t :: seen).reverse
            closeParen := t
            rest }
    else if t.kind = .identifier then
      match _hread : readDeclaration letToken t rest with
      | .error d => .error d
      | .ok read =>
        let declared := read.declaration :: declared
        let seen := read.separator :: (read.used.reverse ++ seen)
        if isCloseParen read.separator then
          .ok
            { declarations := declared.reverse
              used := seen.reverse
              closeParen := read.separator
              rest := read.rest }
        else readDeclarations letToken declared seen read.rest
    else .error ((Problem.nameExpected t).diagnostic t.span)
termination_by ts.length
decreasing_by
  have hdrop : (ts.dropWhile Token.isTrivia).length ≤ ts.length :=
    (List.dropWhile_suffix _).length_le
  have hlt := length_readDeclaration_lt _hread
  rw [_h] at hdrop
  simp only [List.length_cons] at hdrop
  omega

inductive Reading
  /-- No opening parenthesis, so this `let` was never meant to start a block. -/
  | absent
  /-- A parenthesis, but not a header. -/
  | faulty (diagnostic : Diagnostic)
  /-- A header, and the tokens after its opening brace. -/
  | found (header : Header) (rest : List Token)

def read (letToken : Token) (ts : List Token) : Reading :=
  let gap := ts.takeWhile Token.isTrivia
  match ts.dropWhile Token.isTrivia with
  | [] => .absent
  | paren :: rest =>
    if isOpenParen paren then
      match readDeclarations letToken [] [] rest with
      | .error d => .faulty d
      | .ok list =>
        let after := list.rest.takeWhile Token.isTrivia
        match list.rest.dropWhile Token.isTrivia with
        | [] => .faulty ((Problem.bodyExpected none).diagnostic list.closeParen.span)
        | brace :: rest =>
          if isOpenCurly brace then
            let tokens := letToken :: gap ++ paren :: list.used ++ after ++ [brace]
            .found { declarations := list.declarations, tokens } rest
          else .faulty ((Problem.bodyExpected (some brace)).diagnostic brace.span)
    else .absent

theorem length_readDeclarations_le {letToken : Token} {declared : List Declaration}
    {seen ts : List Token} {list : ListRead}
    (h : readDeclarations letToken declared seen ts = .ok list) :
    list.rest.length ≤ ts.length := by
  fun_induction readDeclarations letToken declared seen ts with
  | case1 => cases h
  | case2 => cases h
  | case3 declared seen ts gap t rest hts =>
    have hdrop : (ts.dropWhile Token.isTrivia).length ≤ ts.length :=
      (List.dropWhile_suffix _).length_le
    cases h
    simp only [hts, List.length_cons] at hdrop ⊢
    omega
  | case4 => cases h
  | case5 declared seen ts gap t rest hts _ _ _ read hread =>
    have hdrop : (ts.dropWhile Token.isTrivia).length ≤ ts.length :=
      (List.dropWhile_suffix _).length_le
    have hlt := length_readDeclaration_lt hread
    cases h
    simp only [hts, List.length_cons] at hdrop ⊢
    omega
  | case6 declared seen ts gap t rest hts _ _ _ read hread _ _ _ ih =>
    have hdrop : (ts.dropWhile Token.isTrivia).length ≤ ts.length :=
      (List.dropWhile_suffix _).length_le
    have hlt := length_readDeclaration_lt hread
    have hle := ih h
    simp only [hts, List.length_cons] at hdrop
    omega
  | case7 => cases h

theorem length_read_le {letToken : Token} {ts rest : List Token} {header : Header}
    (h : read letToken ts = .found header rest) : rest.length ≤ ts.length := by
  have hdrop : (ts.dropWhile Token.isTrivia).length ≤ ts.length :=
    (List.dropWhile_suffix _).length_le
  unfold read at h
  split at h
  · cases h
  · next paren rest' hts =>
    rw [hts] at hdrop
    simp only [List.length_cons] at hdrop
    split at h
    · split at h
      · cases h
      · next list hlist =>
        have hle := length_readDeclarations_le hlist
        have hafter : (list.rest.dropWhile Token.isTrivia).length ≤ list.rest.length :=
          (List.dropWhile_suffix _).length_le
        split at h
        · cases h
        · next brace rest'' hrest =>
          rw [hrest] at hafter
          simp only [List.length_cons] at hafter
          split at h
          · cases h
            omega
          · cases h
    · cases h

end Header

end LetBlocks
