import LetBlocks.Proofs.Header.Grammar
import Mathlib.Data.List.Forall2

/-!
Of a token the parser sees the kind, and the lexeme only if it is a punctuator. Two tokens that
agree in this are alike. Here two lists of tokens are paired by a relation `R` between tokens
that are alike, and the readers of headers are followed on both: they take the same way, what
they return is paired again, and if they fail they report the same code at paired tokens. The
relation may say more than that the tokens are alike, such as that they stand at the same
index; what is read keeps that too.
-/

namespace LetBlocks

/-! ### Tokens -/

namespace Token

/-- The parser sees no difference between the two. -/
def Alike (t u : Token) : Prop := t.kind = u.kind ∧ (t.kind = .punct → t.lexeme = u.lexeme)

instance (t u : Token) : Decidable (t.Alike u) := inferInstanceAs (Decidable (_ ∧ _))

namespace Alike

variable {t u : Token}

theorem of_eq (h : t = u) : t.Alike u := h ▸ ⟨rfl, fun _ => rfl⟩

theorem isTrivia (h : t.Alike u) :
    t.isTrivia = u.isTrivia := by rw [Token.isTrivia, Token.isTrivia, h.1]

theorem isEof (h : t.Alike u) : t.isEof = u.isEof := by rw [Token.isEof, Token.isEof, h.1]

theorem isPunct (h : t.Alike u) (text : Text) : t.isPunct text = u.isPunct text := by
  obtain ⟨hkind, hlexeme⟩ := h
  rw [Token.isPunct, Token.isPunct, ← hkind]
  cases hpunct : t.kind == .punct with
  | false => rfl
  | true => rw [hlexeme (by simpa using hpunct)]

theorem opens? (h : t.Alike u) : t.opens? = u.opens? := by
  obtain ⟨hkind, hlexeme⟩ := h
  by_cases hpunct : t.kind = .punct
  · rw [Token.opens?, Token.opens?, hkind, hlexeme hpunct]
  · rw [opens?_eq_none_of_kind hpunct, opens?_eq_none_of_kind (hkind ▸ hpunct)]

theorem closes? (h : t.Alike u) : t.closes? = u.closes? := by
  obtain ⟨hkind, hlexeme⟩ := h
  by_cases hpunct : t.kind = .punct
  · rw [Token.closes?, Token.closes?, hkind, hlexeme hpunct]
  · rw [closes?_eq_none_of_kind hpunct, closes?_eq_none_of_kind (hkind ▸ hpunct)]

end Alike

end Token

section Lists

variable {α β : Type} {S : α → β → Prop} {p : α → Bool} {q : β → Bool} {xs : List α}
    {ys : List β}

/-- Paired lists are cut at the same place by tests that agree on pairs. -/
theorem forall₂_takeWhile (hpq : ∀ x y, S x y → p x = q y) (h : List.Forall₂ S xs ys) :
    List.Forall₂ S (xs.takeWhile p) (ys.takeWhile q) := by
  induction h with
  | nil => exact .nil
  | @cons x y xs ys hxy _ ih =>
      rw [List.takeWhile_cons, List.takeWhile_cons, hpq x y hxy]
      split
      · exact .cons hxy ih
      · exact .nil

theorem forall₂_dropWhile (hpq : ∀ x y, S x y → p x = q y) (h : List.Forall₂ S xs ys) :
    List.Forall₂ S (xs.dropWhile p) (ys.dropWhile q) := by
  induction h with
  | nil => exact .nil
  | @cons x y xs ys hxy hrest ih =>
      rw [List.dropWhile_cons, List.dropWhile_cons, hpq x y hxy]
      split
      · exact ih
      · exact .cons hxy hrest

end Lists

/-! ### What is read -/

/-- Two diagnostics of the same code, located at paired tokens. -/
inductive Diagnostic.Twin (R : Token → Token → Prop) : Diagnostic → Diagnostic → Prop
  | intro {problem problem' : Problem} {t u : Token} (hcode : problem.code = problem'.code)
      (h : R t u) :
      Twin R (problem.diagnostic t.span) (problem'.diagnostic u.span)

structure Declaration.Twin (R : Token → Token → Prop) (d e : Declaration) : Prop where
  name : R d.name e.name
  initializer : Option.Rel (List.Forall₂ R) d.initializer e.initializer
  tokens : List.Forall₂ R d.tokens e.tokens

structure Header.Twin (R : Token → Token → Prop) (h k : Header) : Prop where
  declarations : List.Forall₂ (Declaration.Twin R) h.declarations k.declarations
  tokens : List.Forall₂ R h.tokens k.tokens

theorem Declaration.Twin.eq {d e : Declaration} (h : d.Twin (· = ·) e) : d = e := by
  obtain ⟨name, initializer, tokens⟩ := d
  obtain ⟨name', initializer', tokens'⟩ := e
  obtain ⟨hname, hinitializer, htokens⟩ := h
  rw [List.forall₂_eq_eq_eq] at hinitializer htokens
  obtain rfl : name = name' := hname
  obtain rfl : tokens = tokens' := htokens
  cases hinitializer with
  | none => rfl
  | some h => rw [h]

theorem Header.Twin.eq {h k : Header} (hk : h.Twin (· = ·) k) : h = k := by
  obtain ⟨declarations, tokens⟩ := h
  obtain ⟨declarations', tokens'⟩ := k
  obtain ⟨hdeclarations, htokens⟩ := hk
  have heq : List.Forall₂ (· = ·) declarations declarations' :=
    hdeclarations.imp fun _ _ h => h.eq
  rw [List.forall₂_eq_eq_eq] at heq htokens
  obtain rfl : tokens = tokens' := htokens
  rw [heq]

namespace Header

structure InitializerRead.Twin (R : Token → Token → Prop) (a b : InitializerRead) : Prop where
  tokens : List.Forall₂ R a.tokens b.tokens
  separator : R a.separator b.separator
  rest : List.Forall₂ R a.rest b.rest

structure DeclarationRead.Twin (R : Token → Token → Prop) (a b : DeclarationRead) : Prop where
  declaration : a.declaration.Twin R b.declaration
  used : List.Forall₂ R a.used b.used
  separator : R a.separator b.separator
  rest : List.Forall₂ R a.rest b.rest

structure ListRead.Twin (R : Token → Token → Prop) (a b : ListRead) : Prop where
  declarations : List.Forall₂ (Declaration.Twin R) a.declarations b.declarations
  used : List.Forall₂ R a.used b.used
  closeParen : R a.closeParen b.closeParen
  rest : List.Forall₂ R a.rest b.rest

inductive ResultTwin {α : Type} (R : Token → Token → Prop) (S : α → α → Prop) :
    Except Diagnostic α → Except Diagnostic α → Prop
  | ok {a b : α} (h : S a b) : ResultTwin R S (.ok a) (.ok b)
  | error {d e : Diagnostic} (h : d.Twin R e) : ResultTwin R S (.error d) (.error e)

inductive Reading.Twin (R : Token → Token → Prop) : Reading → Reading → Prop
  | absent : Twin R .absent .absent
  | faulty {d e : Diagnostic} (h : d.Twin R e) : Twin R (.faulty d) (.faulty e)
  | found {h k : Header} {ts us : List Token} (hheader : h.Twin R k)
      (hrest : List.Forall₂ R ts us) :
      Twin R (.found h ts) (.found k us)

/-! ### The readers -/

section

variable {R : Token → Token → Prop} (hR : ∀ t u, R t u → t.Alike u)
    {letToken letToken' : Token}
include hR

theorem twin_gap {ts us : List Token} (h : List.Forall₂ R ts us) :
    List.Forall₂ R (ts.takeWhile Token.isTrivia) (us.takeWhile Token.isTrivia) :=
  forall₂_takeWhile (fun t u htu => (hR t u htu).isTrivia) h

theorem twin_behind_gap {ts us : List Token} (h : List.Forall₂ R ts us) :
    List.Forall₂ R (ts.dropWhile Token.isTrivia) (us.dropWhile Token.isTrivia) :=
  forall₂_dropWhile (fun t u htu => (hR t u htu).isTrivia) h

theorem all_isTrivia_twin {ts us : List Token} (h : List.Forall₂ R ts us) :
    ts.all Token.isTrivia = us.all Token.isTrivia := by
  induction h with
  | nil => rfl
  | cons htu _ ih => rw [List.all_cons, List.all_cons, (hR _ _ htu).isTrivia, ih]

theorem isSeparator_twin {t u : Token} (h : R t u) :
    (isComma t || isCloseParen t) = (isComma u || isCloseParen u) := by
  have halike := hR t u h
  rw [isComma, isCloseParen, halike.isPunct, halike.isPunct, isComma, isCloseParen]

theorem readInitializer_twin (hlet : R letToken letToken') {opened : List Bracket}
    {seen seen' ts us : List Token} (hseen : List.Forall₂ R seen seen')
    (h : List.Forall₂ R ts us) :
    ResultTwin R (InitializerRead.Twin R) (readInitializer letToken opened seen ts)
      (readInitializer letToken' opened seen' us) := by
  induction h generalizing opened seen seen' with
  | nil => exact .error (.intro rfl hlet)
  | @cons t u ts us htu hrest ih =>
      have halike := hR t u htu
      rw [readInitializer, readInitializer, isSeparator_twin hR htu, halike.opens?,
        halike.closes?]
      split
      · exact .ok ⟨List.rel_reverse hseen, htu, hrest⟩
      · cases u.opens? with
        | some bracket => exact ih (.cons htu hseen)
        | none =>
            cases u.closes? with
            | some bracket =>
                dsimp only
                split
                · exact ih (.cons htu hseen)
                · exact .error (.intro rfl htu)
            | none => exact ih (.cons htu hseen)

theorem readDeclaration_twin (hlet : R letToken letToken') {name name' : Token}
    (hname : R name name') {ts us : List Token} (h : List.Forall₂ R ts us) :
    ResultTwin R (DeclarationRead.Twin R) (readDeclaration letToken name ts)
      (readDeclaration letToken' name' us) := by
  have hgap := twin_gap hR h
  have hbehind := twin_behind_gap hR h
  unfold readDeclaration
  generalize ts.dropWhile Token.isTrivia = behind at hbehind ⊢
  generalize us.dropWhile Token.isTrivia = behind' at hbehind ⊢
  cases hbehind with
  | nil => exact .error (.intro rfl hlet)
  | @cons separator separator' rest rest' hsep hrest =>
      have hequals : isEquals separator = isEquals separator' := (hR _ _ hsep).isPunct _
      dsimp only
      rw [hequals, isSeparator_twin hR hsep]
      split
      · have hread :=
          @readInitializer_twin R hR letToken letToken' hlet [] [] [] _ _ .nil hrest
        generalize readInitializer letToken [] [] rest = result at hread ⊢
        generalize readInitializer letToken' [] [] rest' = result' at hread ⊢
        cases hread with
        | error hd => exact .error hd
        | ok hread =>
            dsimp only
            rw [all_isTrivia_twin hR hread.tokens]
            split
            · exact .error (.intro rfl hsep)
            · have htokens :=
                List.rel_append (List.Forall₂.cons hname hgap) (.cons hsep hread.tokens)
              exact .ok ⟨⟨hname, .some hread.tokens, htokens⟩, htokens, hread.separator,
                hread.rest⟩
      · split
        · exact .ok ⟨⟨hname, .none, .cons hname .nil⟩, .cons hname hgap, hsep, hrest⟩
        · exact .error (.intro rfl hsep)

omit hR in
theorem readDeclarations_of_isTrivia {declared : List Declaration} {seen ts : List Token}
    (h : ts.dropWhile Token.isTrivia = []) :
    readDeclarations letToken declared seen ts =
      .error (Problem.openHeader.diagnostic letToken.span) := by
  rw [readDeclarations]
  split
  · rfl
  · next ht => cases h.symm.trans ht

theorem readDeclarations_twin (hlet : R letToken letToken')
    {declared declared' : List Declaration} {seen seen' ts us : List Token}
    (hdeclared : List.Forall₂ (Declaration.Twin R) declared declared')
    (hseen : List.Forall₂ R seen seen') (h : List.Forall₂ R ts us) :
    ResultTwin R (ListRead.Twin R) (readDeclarations letToken declared seen ts)
      (readDeclarations letToken' declared' seen' us) := by
  -- the recursion goes on behind a declaration, so the induction is on the length
  induction hlength : ts.length using
    Nat.strong_induction_on generalizing declared declared' seen seen' ts us with
  | _ n ih =>
      have hgap := twin_gap hR h
      have hbehind := twin_behind_gap hR h
      cases hts : ts.dropWhile Token.isTrivia with
      | nil =>
          rw [hts, List.forall₂_nil_left_iff] at hbehind
          rw [readDeclarations_of_isTrivia hts, readDeclarations_of_isTrivia hbehind]
          exact .error (.intro rfl hlet)
      | cons t rest =>
          rw [hts] at hbehind
          obtain ⟨u, rest', htu, hrest, hus⟩ := List.forall₂_cons_left_iff.1 hbehind
          obtain ⟨gap, rfl, hgap₁, ht⟩ := exists_gap hts
          obtain ⟨gap', rfl, hgap₂, hu⟩ := exists_gap hus
          rw [takeWhile_gap hgap₁ ht, takeWhile_gap hgap₂ hu] at hgap
          have halike := hR t u htu
          have hparen : isCloseParen t = isCloseParen u := halike.isPunct _
          have hempty : declared = [] ↔ declared' = [] := by
            rw [← List.length_eq_zero_iff, hdeclared.length_eq, List.length_eq_zero_iff]
          rw [readDeclarations_gap hgap₁ ht, readDeclarations_gap hgap₂ hu, hparen, halike.1]
          simp only [hempty]
          split
          · split
            · exact .error (.intro rfl htu)
            · exact .ok ⟨List.rel_reverse hdeclared,
                List.rel_append (List.rel_reverse hseen)
                  (List.rel_append hgap (.cons htu .nil)), htu, hrest⟩
          · split
            · have hread := readDeclaration_twin hR hlet htu hrest
              have hlt : ∀ read, readDeclaration letToken t rest = .ok read →
                  read.rest.length < n := by
                intro read hok
                have hlt := length_readDeclaration_lt hok
                simp only [List.length_append, List.length_cons] at hlength
                omega
              generalize readDeclaration letToken t rest = result at hread hlt ⊢
              generalize readDeclaration letToken' u rest' = result' at hread ⊢
              cases hread with
              | error hd => exact .error hd
              | @ok read read' hread =>
                  have hparen' : isCloseParen read.separator = isCloseParen read'.separator :=
                    (hR _ _ hread.separator).isPunct _
                  have hdeclared' := List.Forall₂.cons hread.declaration hdeclared
                  dsimp only
                  rw [hparen']
                  split
                  · exact .ok ⟨List.rel_reverse hdeclared',
                      List.rel_append (List.rel_reverse hseen)
                        (List.rel_append (List.rel_append hgap hread.used)
                          (.cons hread.separator .nil)),
                      hread.separator, hread.rest⟩
                  · have hseen' := List.rel_append (List.rel_reverse hread.used)
                      (List.rel_append (List.rel_reverse hgap) hseen)
                    exact ih _ (hlt read rfl) hdeclared' (.cons hread.separator hseen')
                      hread.rest rfl
            · exact .error (.intro rfl htu)

/-- A header read from tokens that look alike. -/
theorem read_twin (hlet : R letToken letToken') {ts us : List Token}
    (h : List.Forall₂ R ts us) : Reading.Twin R (read letToken ts) (read letToken' us) := by
  have hgap := twin_gap hR h
  have hbehind := twin_behind_gap hR h
  unfold read
  generalize ts.dropWhile Token.isTrivia = behind at hbehind ⊢
  generalize us.dropWhile Token.isTrivia = behind' at hbehind ⊢
  cases hbehind with
  | nil => exact .absent
  | @cons paren paren' rest rest' hparen hrest =>
      have hopen : isOpenParen paren = isOpenParen paren' := (hR _ _ hparen).isPunct _
      dsimp only
      rw [hopen]
      split
      · have hlist :=
          @readDeclarations_twin R hR letToken letToken' hlet [] [] [] [] _ _ .nil .nil hrest
        generalize readDeclarations letToken [] [] rest = result at hlist ⊢
        generalize readDeclarations letToken' [] [] rest' = result' at hlist ⊢
        cases hlist with
        | error hd => exact .faulty hd
        | @ok list list' hlist =>
            have hafter := twin_gap hR hlist.rest
            have hbehind := twin_behind_gap hR hlist.rest
            dsimp only
            generalize list.rest.dropWhile Token.isTrivia = behind at hbehind ⊢
            generalize list'.rest.dropWhile Token.isTrivia = behind' at hbehind ⊢
            cases hbehind with
            | nil => exact .faulty (.intro rfl hlist.closeParen)
            | @cons brace brace' rest rest' hbrace hrest =>
                have hcurly : isOpenCurly brace = isOpenCurly brace' :=
                  (hR _ _ hbrace).isPunct _
                dsimp only
                rw [hcurly]
                split
                · have htokens :=
                    List.rel_append
                      (List.rel_append
                        (List.rel_append (List.Forall₂.cons hlet hgap)
                          (.cons hparen hlist.used))
                        hafter)
                      (.cons hbrace .nil)
                  exact .found ⟨hlist.declarations, htokens⟩ hrest
                · exact .faulty (.intro rfl hbrace)
      · exact .absent

end

end Header

end LetBlocks
