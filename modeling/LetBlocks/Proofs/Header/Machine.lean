import LetBlocks.Proofs.Header.Pieces

/-!
The readers of a header stop at its brace or at the token that fails. What they do on the way
is also done by a machine that takes one piece after another and never goes back: it is in one
of a few states, and in an initializer it has a stack of brackets besides. The machine can be
stopped and continued anywhere, so it can be run along two texts that agree only in parts. It
finds a header exactly if the readers do.
-/

namespace LetBlocks

open Token

/-- What a piece is to a header. -/
inductive Sign
  | trivia
  | name
  | comma
  | equals
  | opener (bracket : Bracket)
  | closer (bracket : Bracket)
  | other
  deriving DecidableEq

namespace Piece

def sign (p : Piece) : Sign :=
  if p.kind.isTrivia then .trivia
  else if p.kind = .identifier then .name
  else if p.kind = .punct then
    match Bracket.opened? p.lexeme, Bracket.closed? p.lexeme with
    | some bracket, _ => .opener bracket
    | none, some bracket => .closer bracket
    | none, none =>
      if p.lexeme = [Byte.comma] then .comma else if p.lexeme = [Byte.equals] then .equals
      else .other
  else .other

end Piece

namespace Header

inductive State
  /-- The parenthesis behind `let`. -/
  | start
  /-- A name, or the closing parenthesis if anything has been `declared`. -/
  | names (declared : Bool)
  /-- What follows a name. -/
  | named
  /-- An initializer, of which something has been `seen`, and the brackets that are open in
  it. -/
  | value (seen : Bool) (opened : List Bracket)
  /-- The brace before the body. -/
  | brace
  | found
  | failed
  deriving DecidableEq

namespace State

def separate (sign : Sign) : State :=
  if sign = .comma then names true else if sign = .closer .round then brace else failed

def stepValue (seen : Bool) (opened : List Bracket) (sign : Sign) : State :=
  match sign, opened with
  | .opener bracket, opened => value true (bracket :: opened)
  | .closer bracket, inner :: opened => if inner = bracket then value true opened else failed
  | .closer bracket, [] => if seen then separate (.closer bracket) else failed
  | .comma, [] => if seen then separate .comma else failed
  | _, opened => value true opened

def step : State → Sign → State
  | s, .trivia => s
  | found, _ => found
  | failed, _ => failed
  | value seen opened, sign => stepValue seen opened sign
  | start, sign => if sign = .opener .round then names false else failed
  | names declared, sign =>
    if sign = .closer .round then if declared then brace else failed
    else if sign = .name then named
    else failed
  | named, sign => if sign = .equals then value false [] else separate sign
  | brace, sign => if sign = .opener .curly then found else failed

def scan (s : State) (ps : List Piece) : State := ps.foldl (fun s p => s.step p.sign) s

end State

end Header

namespace Piece

/-- A `let` behind which the machine finds a header. -/
def Heads : List Piece → Prop
  | [] => False
  | p :: ps => p.kind = .kwLet ∧ Header.State.start.scan ps = .found

/-! ### Signs -/

variable {t : Token}

theorem sign_of_isTrivia {p : Piece} (h : p.kind.isTrivia = true) : p.sign = .trivia := by
  rw [sign, if_pos h]

theorem sign_of_kind_identifier {p : Piece} (h : p.kind = .identifier) : p.sign = .name := by
  rw [sign, h]
  rfl

theorem sign_of_kind_kwLet {p : Piece} (h : p.kind = .kwLet) : p.sign = .other := by
  rw [sign, h]
  rfl

theorem sign_of_punct {p : Piece} (h : p.kind = .punct) : p.sign =
    match Bracket.opened? p.lexeme, Bracket.closed? p.lexeme with
    | some bracket, _ => .opener bracket
    | none, some bracket => .closer bracket
    | none, none =>
      if p.lexeme = [Byte.comma] then .comma else if p.lexeme = [Byte.equals] then .equals
      else .other := by
  rw [sign, h]
  rfl

theorem sign_of_opens? {bracket : Bracket} (h : t.opens? = some bracket) :
    t.toPiece.sign = .opener bracket := by
  obtain ⟨hkind, hlexeme⟩ := opens?_eq_some_iff.1 h
  rw [sign_of_punct (by simpa using hkind), toPiece_lexeme,
    Bracket.opened?_eq_some_iff.2 hlexeme]

theorem sign_of_closes? {bracket : Bracket} (h : t.closes? = some bracket) :
    t.toPiece.sign = .closer bracket := by
  obtain ⟨hkind, hlexeme⟩ := closes?_eq_some_iff.1 h
  rw [sign_of_punct (by simpa using hkind), toPiece_lexeme, hlexeme]
  cases bracket <;> rfl

theorem sign_of_isComma (h : Header.isComma t = true) : t.toPiece.sign = .comma := by
  obtain ⟨hkind, hlexeme⟩ := isPunct_iff.1 h
  rw [sign_of_punct (by simpa using hkind), toPiece_lexeme, hlexeme]
  rfl

theorem sign_of_isEquals (h : Header.isEquals t = true) : t.toPiece.sign = .equals := by
  obtain ⟨hkind, hlexeme⟩ := isPunct_iff.1 h
  rw [sign_of_punct (by simpa using hkind), toPiece_lexeme, hlexeme]
  rfl

/-- The sign of a token tells what it is. -/
theorem sign_toPiece (t : Token) :
    match t.toPiece.sign with
    | .trivia => t.isTrivia = true
    | .name => t.kind = .identifier
    | .comma => Header.isComma t = true
    | .equals => Header.isEquals t = true
    | .opener bracket => t.opens? = some bracket
    | .closer bracket => t.closes? = some bracket
    | .other =>
        t.isTrivia = false ∧ t.kind ≠ .identifier ∧ t.opens? = none ∧ t.closes? = none ∧
        Header.isComma t = false ∧ Header.isEquals t = false := by
  by_cases htrivia : t.kind.isTrivia = true
  · rw [sign_of_isTrivia htrivia]
    exact htrivia
  by_cases hname : t.kind = .identifier
  · rw [sign_of_kind_identifier hname]
    exact hname
  by_cases hpunct : t.kind = .punct
  · rw [sign_of_punct hpunct, toPiece_lexeme]
    cases hopened : Bracket.opened? t.lexeme with
    | some bracket => exact (if_pos hpunct).trans hopened
    | none =>
        cases hclosed : Bracket.closed? t.lexeme with
        | some bracket => exact (if_pos hpunct).trans hclosed
        | none =>
            have hopens : t.opens? = none := (if_pos hpunct).trans hopened
            have hcloses : t.closes? = none := (if_pos hpunct).trans hclosed
            by_cases hcomma : t.lexeme = [Byte.comma]
            · simp [hcomma, Header.isComma, isPunct, hpunct]
            by_cases hequals : t.lexeme = [Byte.equals]
            · have hne : [Byte.equals] ≠ [Byte.comma] := by decide
              simp [hequals, hne, Header.isEquals, isPunct, hpunct]
            · have htrivia' : t.isTrivia = false := isTrivia_of_kind_punct hpunct
              simp [hcomma, hequals, hopens, hcloses, hname, htrivia', Header.isComma,
                Header.isEquals, isPunct]
  · have hsign : t.toPiece.sign = .other := by
      simp [sign, htrivia, hname, hpunct]
    rw [hsign]
    refine ⟨Bool.not_eq_true _ ▸ htrivia, hname, opens?_eq_none_of_kind hpunct,
      closes?_eq_none_of_kind hpunct, ?_, ?_⟩
    · simp [Header.isComma, isPunct, hpunct]
    · simp [Header.isEquals, isPunct, hpunct]

theorem sign_eq_name_iff : t.toPiece.sign = .name ↔ t.kind = .identifier :=
  ⟨fun h => by simpa [h] using sign_toPiece t, fun h => sign_of_kind_identifier h⟩

theorem sign_eq_comma_iff : t.toPiece.sign = .comma ↔ Header.isComma t = true :=
  ⟨fun h => by simpa [h] using sign_toPiece t, sign_of_isComma⟩

theorem sign_eq_equals_iff : t.toPiece.sign = .equals ↔ Header.isEquals t = true :=
  ⟨fun h => by simpa [h] using sign_toPiece t, sign_of_isEquals⟩

theorem sign_eq_opener_iff {bracket : Bracket} :
    t.toPiece.sign = .opener bracket ↔ t.opens? = some bracket :=
  ⟨fun h => by simpa [h] using sign_toPiece t, sign_of_opens?⟩

theorem sign_eq_closer_iff {bracket : Bracket} :
    t.toPiece.sign = .closer bracket ↔ t.closes? = some bracket :=
  ⟨fun h => by simpa [h] using sign_toPiece t, sign_of_closes?⟩

theorem sign_eq_openParen_iff :
    t.toPiece.sign = .opener .round ↔ Header.isOpenParen t = true :=
  sign_eq_opener_iff.trans (opens?_eq_some_iff.trans isPunct_iff.symm)

theorem sign_eq_closeParen_iff :
    t.toPiece.sign = .closer .round ↔ Header.isCloseParen t = true :=
  sign_eq_closer_iff.trans (closes?_eq_some_iff.trans isPunct_iff.symm)

theorem sign_eq_openCurly_iff :
    t.toPiece.sign = .opener .curly ↔ Header.isOpenCurly t = true :=
  sign_eq_opener_iff.trans (opens?_eq_some_iff.trans isPunct_iff.symm)

end Piece

namespace Header

namespace State

/-! ### Steps -/

@[simp] theorem step_trivia (s : State) : s.step .trivia = s := by
  cases s <;> rfl

@[simp] theorem step_found (sign : Sign) : found.step sign = found := by
  cases sign <;> rfl

@[simp] theorem step_failed (sign : Sign) : failed.step sign = failed := by
  cases sign <;> rfl

section Steps

variable {t : Token}

theorem sign_ne_trivia (h : t.isTrivia = false) : t.toPiece.sign ≠ .trivia := by
  intro hsign
  simpa [hsign, h] using Piece.sign_toPiece t

theorem step_start (h : t.isTrivia = false) :
    start.step t.toPiece.sign = if isOpenParen t then names false else failed := by
  have hsign := sign_ne_trivia h
  simp only [← Piece.sign_eq_openParen_iff]
  cases hs : t.toPiece.sign with
  | trivia => exact absurd hs hsign
  | _ => rfl

theorem step_names (h : t.isTrivia = false) (declared : Bool) :
    (names declared).step t.toPiece.sign =
    if isCloseParen t then if declared then brace else failed
    else if t.kind = .identifier then named
    else failed := by
  have hsign := sign_ne_trivia h
  simp only [← Piece.sign_eq_closeParen_iff, ← Piece.sign_eq_name_iff]
  cases hs : t.toPiece.sign with
  | trivia => exact absurd hs hsign
  | _ => rfl

theorem step_named (h : t.isTrivia = false) :
    named.step t.toPiece.sign =
      if isEquals t then value false [] else separate t.toPiece.sign := by
  have hsign := sign_ne_trivia h
  simp only [← Piece.sign_eq_equals_iff]
  cases hs : t.toPiece.sign with
  | trivia => exact absurd hs hsign
  | _ => rfl

theorem step_brace (h : t.isTrivia = false) :
    brace.step t.toPiece.sign = if isOpenCurly t then found else failed := by
  have hsign := sign_ne_trivia h
  simp only [← Piece.sign_eq_openCurly_iff]
  cases hs : t.toPiece.sign with
  | trivia => exact absurd hs hsign
  | _ => rfl

end Steps

@[simp] theorem scan_nil (s : State) : s.scan [] = s := rfl

@[simp] theorem scan_cons (s : State) (p : Piece) (ps : List Piece) :
    s.scan (p :: ps) = (s.step p.sign).scan ps := rfl

@[simp] theorem scan_append (s : State) (ps qs : List Piece) :
    s.scan (ps ++ qs) = (s.scan ps).scan qs :=
  List.foldl_append

@[simp] theorem scan_found (ps : List Piece) : found.scan ps = found := by
  induction ps with
  | nil => rfl
  | cons p ps ih => rw [scan_cons, step_found, ih]

@[simp] theorem scan_failed (ps : List Piece) : failed.scan ps = failed := by
  induction ps with
  | nil => rfl
  | cons p ps ih => rw [scan_cons, step_failed, ih]

theorem scan_of_isTrivia {ps : List Piece} (h : ∀ p ∈ ps, p.kind.isTrivia = true) (s : State) :
    s.scan ps = s := by
  induction ps with
  | nil => rfl
  | cons p ps ih =>
      rw [List.forall_mem_cons] at h
      rw [scan_cons, Piece.sign_of_isTrivia h.1, step_trivia, ih h.2]

/-! ### Tokens of an initializer -/

section Value

variable {t : Token} {seen : Bool} {opened : List Bracket} {bracket : Bracket}

theorem step_value_of_opens? (h : t.opens? = some bracket) :
    (value seen opened).step t.toPiece.sign = value true (bracket :: opened) := by
  rw [Piece.sign_of_opens? h]
  rfl

theorem step_value_of_closes? (h : t.closes? = some bracket)
    (hsep : opened = [] → bracket ≠ .round) :
    (value seen opened).step t.toPiece.sign =
      if opened.head? = some bracket then value true opened.tail else failed := by
  rw [Piece.sign_of_closes? h]
  cases opened with
  | nil =>
      have hround : bracket ≠ .round := hsep rfl
      simp [step, stepValue, separate, hround]
  | cons inner opened => simp [step, stepValue]

theorem step_value_of_separator (h : (isComma t || isCloseParen t) = true) :
    (value seen []).step t.toPiece.sign =
      if seen then separate t.toPiece.sign else failed := by
  rcases Bool.or_eq_true_iff.1 h with h | h
  · rw [Piece.sign_of_isComma h]
    rfl
  · rw [Piece.sign_eq_closeParen_iff.2 h]
    rfl

theorem step_value_of_plain (hopens : t.opens? = none) (hcloses : t.closes? = none)
    (hcomma : opened = [] → isComma t = false) :
    (value seen opened).step t.toPiece.sign = value (!t.isTrivia || seen) opened := by
  have hsign := Piece.sign_toPiece t
  cases hs : t.toPiece.sign with
  | trivia =>
      rw [hs] at hsign
      simp [hsign]
  | name =>
      rw [hs] at hsign
      simp [step, stepValue, isTrivia_of_kind_identifier hsign]
  | comma =>
      rw [hs] at hsign
      cases opened with
      | nil => simp [hcomma rfl] at hsign
      | cons inner opened => simp [step, stepValue, isTrivia_of_isPunct hsign]
  | equals =>
      rw [hs] at hsign
      simp [step, stepValue, isTrivia_of_isPunct hsign]
  | opener bracket => simp [hs, hopens] at hsign
  | closer bracket => simp [hs, hcloses] at hsign
  | other =>
      rw [hs] at hsign
      simp [step, stepValue, hsign.1]

end Value

end State

/-! ### The readers -/

open State

def InitializerRead.state (read : InitializerRead) : State :=
  if read.tokens.all isTrivia then failed else separate read.separator.toPiece.sign

theorem scan_readInitializer (letToken : Token) (opened : List Bracket)
    (seen ts : List Token) :
    match readInitializer letToken opened seen ts with
    | .error _ => (value (seen.any (!·.isTrivia)) opened).scan (ts.map toPiece) ≠ found
    | .ok read =>
        (value (seen.any (!·.isTrivia)) opened).scan (ts.map toPiece) =
          read.state.scan (read.rest.map toPiece) := by
  fun_induction readInitializer letToken opened seen ts with
  | case1 => simp
  | case2 opened seen t rest h =>
      obtain ⟨rfl, hsep⟩ := h
      dsimp only
      rw [List.map_cons, scan_cons, step_value_of_separator hsep, InitializerRead.state,
        List.all_reverse]
      congr 1
      cases hall : seen.all isTrivia <;> simp [List.any_eq_not_all_not, hall]
  | case3 opened seen t rest h bracket hopens ih =>
      have hseen : (t :: seen).any (!·.isTrivia) = true := by
        simp [isTrivia_of_kind_punct (opens?_eq_some_iff.1 hopens).1]
      rw [List.map_cons, scan_cons, step_value_of_opens? hopens]
      rwa [hseen] at ih
  | case4 opened seen t rest h bracket hcloses hopens hhead ih =>
      have hseen : (t :: seen).any (!·.isTrivia) = true := by
        simp [isTrivia_of_kind_punct (closes?_eq_some_iff.1 hcloses).1]
      rw [List.map_cons, scan_cons, step_value_of_closes? hcloses (by rintro rfl; cases hhead),
        if_pos hhead]
      rwa [hseen] at ih
  | case5 opened seen t rest h bracket hcloses hopens hhead =>
      have hsep : opened = [] → bracket ≠ .round := by
        rintro rfl rfl
        exact h ⟨rfl, by simp [isCloseParen_iff.2 (closes?_eq_some_iff.1 hcloses)]⟩
      rw [List.map_cons, scan_cons, step_value_of_closes? hcloses hsep, if_neg hhead]
      simp
  | case6 opened seen t rest h hcloses hopens ih =>
      have hcomma : opened = [] → isComma t = false := by
        rintro rfl
        rw [Bool.eq_false_iff]
        exact fun hcomma => h ⟨rfl, by simp [hcomma]⟩
      rw [List.map_cons, scan_cons, step_value_of_plain hopens hcloses hcomma]
      exact ih

theorem AllTrivia.scan {ts : List Token} (h : AllTrivia ts) (s : State) :
    s.scan (ts.map toPiece) = s := by
  apply scan_of_isTrivia
  rw [List.forall_mem_map]
  exact h

theorem separate_eq_failed {t : Token} (h : (isComma t || isCloseParen t) = false) :
    separate t.toPiece.sign = failed := by
  rw [Bool.or_eq_false_iff] at h
  rw [separate, if_neg, if_neg]
  · rw [Piece.sign_eq_closeParen_iff]
    simp [h.2]
  · rw [Piece.sign_eq_comma_iff]
    simp [h.1]

/-- Up to the first token that is not trivia the machine stays where it is. -/
theorem scan_gap {ts rest : List Token} {t : Token} (h : ts.dropWhile isTrivia = t :: rest)
    (s : State) :
    t.isTrivia = false ∧ s.scan (ts.map toPiece) =
      (s.step t.toPiece.sign).scan (rest.map toPiece) := by
  obtain ⟨gap, rfl, hgap, htrivia⟩ := exists_gap h
  exact ⟨htrivia, by rw [List.map_append, scan_append, hgap.scan, List.map_cons, scan_cons]⟩

theorem scan_of_dropWhile_nil {ts : List Token} (h : ts.dropWhile isTrivia = []) (s : State) :
    s.scan (ts.map toPiece) = s :=
  AllTrivia.scan (List.dropWhile_eq_nil_iff.1 h) s

theorem scan_readDeclaration (letToken name : Token) (ts : List Token) :
    match readDeclaration letToken name ts with
    | .error _ => named.scan (ts.map toPiece) ≠ found
    | .ok read =>
      (isComma read.separator || isCloseParen read.separator) = true ∧
        named.scan (ts.map toPiece) =
          (separate read.separator.toPiece.sign).scan (read.rest.map toPiece) := by
  unfold readDeclaration
  dsimp only
  cases hdrop : ts.dropWhile isTrivia with
  | nil =>
      rw [scan_of_dropWhile_nil hdrop]
      simp
  | cons t rest =>
      obtain ⟨htrivia, hscan⟩ := scan_gap hdrop named
      rw [hscan, step_named htrivia]
      dsimp only
      split_ifs with hequals hsep
      · have hread := scan_readInitializer letToken [] [] rest
        cases hinit : readInitializer letToken [] [] rest with
        | error d =>
            rw [hinit] at hread
            exact hread
        | ok read =>
            obtain ⟨-, -, -, -, hsep⟩ := closes_of_readInitializer hinit
            rw [hinit] at hread
            dsimp only [List.any_nil] at hread ⊢
            rw [hread, InitializerRead.state]
            split_ifs
            · simp
            · exact ⟨hsep, rfl⟩
      · exact ⟨hsep, rfl⟩
      · rw [separate_eq_failed (Bool.eq_false_iff.2 hsep)]
        simp

theorem scan_readDeclarations (letToken : Token) (declared : List Declaration)
    (seen ts : List Token) :
    match readDeclarations letToken declared seen ts with
    | .error _ => (names (declared ≠ [])).scan (ts.map toPiece) ≠ found
    | .ok list =>
        (names (declared ≠ [])).scan (ts.map toPiece) =
          brace.scan (list.rest.map toPiece) := by
  fun_induction readDeclarations letToken declared seen ts with
  | case1 declared seen ts hdrop =>
      rw [scan_of_dropWhile_nil hdrop]
      simp
  | case2 seen ts t rest hdrop hclose =>
      obtain ⟨htrivia, hscan⟩ := scan_gap hdrop (names false)
      rw [step_names htrivia, if_pos hclose] at hscan
      simp [hscan]
  | case3 declared seen ts gap t rest hdrop seen' hclose hne =>
      obtain ⟨htrivia, hscan⟩ := scan_gap hdrop (names true)
      rw [step_names htrivia, if_pos hclose] at hscan
      simp [hne, hscan]
  | case4 declared seen ts t rest hdrop hclose hname d hread =>
      obtain ⟨htrivia, hscan⟩ := scan_gap hdrop (names (declared ≠ []))
      have hrest := scan_readDeclaration letToken t rest
      rw [hread] at hrest
      rw [step_names htrivia, if_neg hclose, if_pos hname] at hscan
      rwa [hscan]
  | case5 declared seen ts gap t rest hdrop seen' hclose hname read hread declared' seen''
      hsep =>
      obtain ⟨htrivia, hscan⟩ := scan_gap hdrop (names (declared ≠ []))
      have hrest := scan_readDeclaration letToken t rest
      rw [hread] at hrest
      rw [step_names htrivia, if_neg hclose, if_pos hname, hrest.2,
        Piece.sign_eq_closeParen_iff.2 hsep] at hscan
      exact hscan
  | case6 declared seen ts gap t rest hdrop seen' hclose hname read hread declared' seen'' hsep
      ih =>
      obtain ⟨htrivia, hscan⟩ := scan_gap hdrop (names (declared ≠ []))
      have hrest := scan_readDeclaration letToken t rest
      rw [hread] at hrest
      have hcomma : isComma read.separator = true := by simpa [hsep] using hrest.1
      rw [step_names htrivia, if_neg hclose, if_pos hname, hrest.2,
        Piece.sign_eq_comma_iff.2 hcomma] at hscan
      rw [hscan]
      exact ih
  | case7 declared seen ts t rest hdrop hclose hname =>
      obtain ⟨htrivia, hscan⟩ := scan_gap hdrop (names (declared ≠ []))
      rw [step_names htrivia, if_neg hclose, if_neg hname, scan_failed] at hscan
      dsimp only
      rw [hscan]
      simp

/-- The machine finds a header exactly if the reader does. -/
theorem scan_eq_found_iff (letToken : Token) (ts : List Token) :
    start.scan (ts.map toPiece) = found ↔
      ∃ header rest, read letToken ts = .found header rest := by
  unfold read
  dsimp only
  cases hdrop : ts.dropWhile isTrivia with
  | nil =>
      rw [scan_of_dropWhile_nil hdrop]
      simp
  | cons paren rest =>
      obtain ⟨htrivia, hscan⟩ := scan_gap hdrop start
      rw [hscan, step_start htrivia]
      dsimp only
      split_ifs with hparen
      · have hlist := scan_readDeclarations letToken [] [] rest
        cases hread : readDeclarations letToken [] [] rest with
        | error d =>
            rw [hread] at hlist
            exact iff_of_false hlist (by simp)
        | ok list =>
            rw [hread] at hlist
            dsimp only at hlist ⊢
            have hnames : (names false).scan (rest.map toPiece) =
                brace.scan (list.rest.map toPiece) := hlist
            rw [hnames]
            cases hafter : list.rest.dropWhile isTrivia with
            | nil =>
                rw [scan_of_dropWhile_nil hafter]
                simp
            | cons curly rest' =>
                obtain ⟨htrivia', hscan'⟩ := scan_gap hafter brace
                rw [hscan', step_brace htrivia']
                dsimp only
                split_ifs <;> simp
      · simp

/-! ### Headers in initializers -/

/-- Matching brackets leave the stack as it is. A comma outside of them does too, unless the
stack is empty. -/
theorem Matched.scan {commas : Bool} {ts : List Token} (h : Matched commas ts)
    {opened : List Bracket} (hopened : commas = true → opened ≠ []) :
    (value true opened).scan (ts.map toPiece) = value true opened := by
  induction h generalizing opened with
  | nil => rfl
  | @plain commas t ts hopens hcloses hcomma hrest ih =>
      have hcomma' : opened = [] → isComma t = false :=
        fun hnil => hcomma.resolve_left fun h => hopened h hnil
      rw [List.map_cons, scan_cons, step_value_of_plain hopens hcloses hcomma', Bool.or_true,
        ih hopened]
  | @group commas bracket opener closer inner ts hopens hcloses hinner hrest ihinner ih =>
      have hcloser : (value true (bracket :: opened)).step closer.toPiece.sign =
          value true opened := by
        rw [step_value_of_closes? hcloses (by simp), List.head?_cons, if_pos rfl,
          List.tail_cons]
      rw [List.map_append, scan_append, List.map_cons, scan_cons, step_value_of_opens? hopens,
        ihinner (by simp), List.map_cons, scan_cons, hcloser, ih hopened]

namespace State

/-- What a block does to the machine at its beginning, where it opens some brackets: in an
initializer they are put on the stack, anywhere else there is no header any more. -/
def enter (brackets : List Bracket) : State → State
  | value _ opened => value true (brackets ++ opened)
  | found => found
  | _ => failed

def leave : State → State
  | value _ (.curly :: opened) => value true opened
  | found => found
  | _ => failed

theorem enter_enter (s : State) (inner outer : List Bracket) :
    (s.enter outer).enter inner = s.enter (inner ++ outer) := by
  cases s <;> simp [enter]

theorem step_closeCurly (s : State) : s.step (.closer .curly) = s.leave := by
  cases s with
  | value seen opened =>
      cases opened with
      | nil => cases seen <;> rfl
      | cons bracket opened => cases bracket <;> rfl
  | _ => rfl

end State

theorem IsHeader.scan {ts : List Token} {ds : List Declaration} (h : IsHeader ts ds)
    (s : State) : s.scan (ts.map toPiece) = s.enter [.curly] := by
  cases h with
  | @intro letToken paren brace gap list after _ hlet hgap hparen hlist hafter hbrace =>
      obtain ⟨inner, close, rfl, hclose, hinner⟩ := hlist.matched
      have hparts : (letToken :: gap ++ paren :: (inner ++ [close]) ++ after ++ [brace]).map
          toPiece = letToken.toPiece :: (gap.map toPiece ++ paren.toPiece ::
            (inner.map toPiece ++ close.toPiece ::
            (after.map toPiece ++ [brace.toPiece]))) := by
        simp
      have hlet' : letToken.toPiece.sign = .other := Piece.sign_of_kind_kwLet hlet
      rw [hparts, scan_cons, hlet']
      cases s with
      | value seen opened =>
          have hinner' : (value true (.round :: opened)).scan (inner.map toPiece) =
              value true (.round :: opened) :=
            hinner.scan (by simp)
          have hstep : (value seen opened).step .other = value true opened := rfl
          have hparen' : (value true opened).step (.opener .round) =
              value true (.round :: opened) := rfl
          have hclose' : (value true (.round :: opened)).step (.closer .round) =
              value true opened := rfl
          rw [hstep, scan_append, hgap.scan, scan_cons, Piece.sign_eq_openParen_iff.2 hparen,
            hparen', scan_append, hinner', scan_cons, Piece.sign_eq_closeParen_iff.2 hclose,
            hclose', scan_append, hafter.scan, scan_cons, Piece.sign_eq_openCurly_iff.2 hbrace]
          rfl
      | found => exact scan_found _
      | _ => exact scan_failed _

end Header

/-- Where a header starts, the machine finds one. -/
theorem Piece.StartsBlock.heads {ps : List Piece} (h : StartsBlock ps) : Heads ps := by
  obtain ⟨used, ds, rest, hheader, rfl⟩ := h
  obtain ⟨letToken, more, hused, hlet⟩ : ∃ letToken more, used = letToken :: more ∧
      letToken.kind = .kwLet := by
    cases hheader with
    | intro hlet => exact ⟨_, _, rfl, hlet⟩
  subst hused
  have hread : Header.read letToken more = .found ⟨ds, letToken :: more⟩ [] :=
    Header.read_complete hheader (List.append_nil _).symm
  rw [List.map_cons, List.cons_append]
  refine ⟨hlet, ?_⟩
  rw [Header.State.scan_append, (Header.scan_eq_found_iff letToken more).2 ⟨_, _, hread⟩,
    Header.State.scan_found]

end LetBlocks
