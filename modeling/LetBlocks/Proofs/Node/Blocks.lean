import LetBlocks.Proofs.Header.Pieces
import LetBlocks.Proofs.Node.Lossless

/-!
The parser opens a block at each header that it meets, unless a dot precedes it. So the tree of
a list of tokens has no blocks exactly if no header starts anywhere in the list. If the parser
moreover has nothing to report, then in a plain run not even an attempt at a header is left: no
parenthesis follows a `let`.
-/

namespace LetBlocks

open Token

namespace Piece

def dots (dotted : Bool) (p : Piece) : Bool :=
  if p.kind.isTrivia then dotted
  else p.kind == .punct && (p.lexeme == utf8 "." || p.lexeme == utf8 "?.")

def dotsAll (dotted : Bool) (ps : List Piece) : Bool := ps.foldl dots dotted

/-- From no place in `ps`, unless it is after a dot, do the pieces begin as `S` says. They go
on with `rest`. -/
def Free (S : List Piece → Prop) : Bool → List Piece → List Piece → Prop
  | _, [], _ => True
  | dotted, p :: ps, rest =>
    (dotted = false → ¬ S (p :: (ps ++ rest))) ∧ Free S (p.dots dotted) ps rest

section Free

variable {S S' : List Piece → Prop} {dotted : Bool} {ps qs rest : List Piece}

theorem free_append : Free S dotted (ps ++ qs) rest ↔
    Free S dotted ps (qs ++ rest) ∧ Free S (dotsAll dotted ps) qs rest := by
  induction ps generalizing dotted with
  | nil => simp [Free, dotsAll]
  | cons p ps ih => simp [Free, ih, dotsAll, and_assoc]

theorem Free.imp (h : Free S dotted ps rest) (himp : ∀ {ps}, S' ps → S ps) :
    Free S' dotted ps rest := by
  induction ps generalizing dotted with
  | nil => trivial
  | cons p ps ih => exact ⟨fun hdotted hS => h.1 hdotted (himp hS), ih h.2⟩

/-- A dot before the pieces can only help. -/
theorem Free.weaken (h : Free S false ps rest) (dotted : Bool) : Free S dotted ps rest := by
  induction ps generalizing dotted with
  | nil => trivial
  | cons p ps ih =>
      refine ⟨fun _ => h.1 rfl, ?_⟩
      have htail := h.2
      unfold dots at htail ⊢
      split_ifs at htail ⊢
      · exact ih htail dotted
      · exact htail

theorem free_of_not_start (h : ∀ p ∈ ps, ∀ more, ¬ S (p :: more)) : Free S dotted ps rest := by
  induction ps generalizing dotted with
  | nil => trivial
  | cons p ps ih =>
      rw [List.forall_mem_cons] at h
      exact ⟨fun _ => h.1 _, ih h.2⟩

/-- No header starts where there is no `let`. -/
theorem free_of_kinds (h : ∀ p ∈ ps, p.kind ≠ .kwLet) : Free TriesBlock dotted ps rest :=
  free_of_not_start fun p hp _ htries => h p hp htries.1

theorem parenNext_append (h : parenNext (ps ++ rest) = true) {rest' : List Piece} :
    parenNext (ps ++ rest') = true ∨ ∀ p ∈ ps, p.kind.isTrivia = true := by
  induction ps with
  | nil => exact .inr (by simp)
  | cons p ps ih =>
      cases htrivia : p.kind.isTrivia with
      | true =>
          have hone : ∀ q ∈ [p], q.kind.isTrivia = true := by simpa using htrivia
          rw [← List.singleton_append, List.append_assoc, parenNext,
            significant?_append hone] at h ⊢
          refine (ih h).imp id fun hps => ?_
          rw [List.forall_mem_append]
          exact ⟨hone, hps⟩
      | false =>
          left
          rw [List.cons_append, parenNext, significant?_cons htrivia] at h ⊢
          exact h

/-- What follows does not matter as long as it does not begin with a parenthesis. -/
theorem Free.move (h : Free TriesBlock dotted ps rest) (rest' : List Piece)
    (hrest : parenNext rest' = false) : Free TriesBlock dotted ps rest' := by
  induction ps generalizing dotted with
  | nil => trivial
  | cons p ps ih =>
      refine ⟨?_, ih h.2⟩
      rintro hdotted ⟨hlet, hparen⟩
      rcases parenNext_append hparen with hparen' | htrivia
      · exact h.1 hdotted ⟨hlet, hparen'⟩
      · rw [parenNext, significant?_append htrivia, ← parenNext, hrest] at hparen
        cases hparen

end Free

end Piece

namespace Node

open Piece

/-! ### Counting blocks -/

@[simp] theorem countAll_reverse (nodes : List Node) :
    countAll nodes.reverse = countAll nodes := by
  induction nodes with
  | nil => rfl
  | cons node nodes ih => simp [countAll, ih, Nat.add_comm]

theorem countAll_toNodes (s : Scope) : countAll s.toNodes = countAll s.nodes := by
  rw [Scope.toNodes, countAll_reverse, Scope.flushed]
  split_ifs
  · rfl
  · simp [countAll, count]

namespace Progress

def countAround : List OpenBlock → Nat
  | [] => 0
  | b :: around => countAll b.outer.nodes + 1 + countAround around

/-- The number of blocks that were opened so far. -/
def count (p : Progress) : Nat := countAll p.scope.nodes + countAround p.around

theorem count_openBlock (p : Progress) (t : Token) (header : Header) :
    (p.openBlock t header).count = p.count + 1 := by
  have hflushed : countAll p.scope.flushed = countAll p.scope.nodes := by
    rw [← countAll_reverse, ← Scope.toNodes, countAll_toNodes]
  simp only [count, openBlock, countAround, hflushed, countAll]
  omega

theorem count_closeBlock (p : Progress) (closing : Option Token) (stop : Location) :
    (p.closeBlock closing stop).count = p.count := by
  unfold closeBlock
  split
  · rfl
  · next block around haround =>
    simp only [count, countAll, Node.count, countAll_toNodes, haround, countAround]
    omega

theorem count_take (p : Progress) (t : Token) : (p.take t).count = p.count := by
  rcases take_cases p t with ⟨brackets, ds, h⟩ | ⟨ds, -, -, h⟩
  · rw [h]
    rfl
  · rw [h]
    exact count_closeBlock (p.noting ds) (some t) t.span.stop

theorem afterDot_of_last {p : Progress} {t : Token} (h : p.last = some t) :
    p.afterDot = (t.kind == .punct && (t.lexeme == utf8 "." || t.lexeme == utf8 "?.")) := by
  rw [afterDot, h, Option.any_some, isPunct, isPunct, Bool.and_or_distrib_left]

/-- A brace is no dot. -/
theorem afterDot_of_curly {p : Progress} {t : Token} (hlast : p.last = some t)
    (hlexeme : t.lexeme = [Byte.openCurly] ∨ t.lexeme = [Byte.closeCurly]) :
    p.afterDot = false := by
  rw [afterDot_of_last hlast, Bool.and_eq_false_imp]
  intro _
  rcases hlexeme with hlexeme | hlexeme <;>
    · rw [hlexeme]
      decide

theorem afterDot_openBlock {p : Progress} {t : Token} {header : Header}
    (h : Header.IsHeader header.tokens header.declarations) :
    (p.openBlock t header).afterDot = false := by
  obtain ⟨more, brace, htokens, hbrace⟩ := h.exists_brace
  have hlast : (p.openBlock t header).last = some brace := by
    rw [openBlock, htokens, List.getLast?_concat]
  exact afterDot_of_curly hlast (.inl (isPunct_iff.1 hbrace).2)

theorem afterDot_append (p : Progress) (t : Token) :
    (p.append t).afterDot = t.toPiece.dots p.afterDot := by
  unfold dots
  split_ifs with htrivia
  · have hlast : (p.append t).last = p.last := if_pos htrivia
    rw [afterDot, hlast]
    rfl
  · exact afterDot_of_last (if_neg htrivia)

theorem afterDot_take (p : Progress) (t : Token) :
    (p.take t).afterDot = t.toPiece.dots p.afterDot := by
  rcases take_cases p t with ⟨brackets, ds, h⟩ | ⟨ds, -, hcloses, h⟩
  · rw [h, afterDot_append]
    rfl
  · have htrivia : t.kind.isTrivia = false :=
      isTrivia_of_kind_punct (closes?_eq_some_iff.1 hcloses).1
    rw [h, dots, if_neg (by simp [htrivia])]
    exact afterDot_of_last rfl

/-- The parser opens no block exactly if no header starts in what it reads. -/
theorem count_run {p : Progress} {ts : List Token} (heof : ∀ t ∈ ts, t.isEof = false) :
    p.count ≤ (p.run ts).count ∧
      ((p.run ts).count = p.count ↔ Free StartsBlock p.afterDot (ts.map toPiece) []) := by
  -- a token that is taken leaves the count as it is and starts no header
  have htake : ∀ {p q : Progress} {t : Token} {rest : List Token},
      (p.afterDot = false → ¬ StartsBlock ((t :: rest).map toPiece)) →
      (p.take t).count ≤ q.count ∧
        (q.count = (p.take t).count ↔
          Free StartsBlock (p.take t).afterDot (rest.map toPiece) []) →
      p.count ≤ q.count ∧
        (q.count = p.count ↔ Free StartsBlock p.afterDot ((t :: rest).map toPiece) []) := by
    intro p q t rest hnot h
    rw [count_take, afterDot_take] at h
    rw [List.map_cons] at hnot ⊢
    rw [Free, List.append_nil]
    exact ⟨h.1, h.2.trans (iff_and_self.2 fun _ => hnot)⟩
  fun_induction run p ts with
  | case1 p => simp [Free]
  | case2 p t rest hstart header rest' hread ih =>
      have hrest := (List.forall_mem_cons.1 heof).2
      have hsplit := (Header.read_sound hread hstart.1 hrest).1
      have heof' : ∀ u ∈ rest', u.isEof = false := by
        rw [hsplit, List.forall_mem_append] at heof
        exact heof.2
      -- the header adds a block, and no later step takes one away
      have hcount := (ih heof').1
      rw [count_openBlock] at hcount
      have hstarts := (startsBlock_iff hstart.1 hrest).2 ⟨header, rest', hread⟩
      refine ⟨by omega, iff_of_false (by omega) ?_⟩
      intro hfree
      rw [List.map_cons, Free, List.append_nil] at hfree
      exact hfree.1 hstart.2 hstarts
  | case3 p t rest hstart d hread ih =>
      rw [List.forall_mem_cons] at heof
      refine @htake (p.noting [d]) _ _ _ (fun _ hstarts => ?_) (ih heof.2)
      obtain ⟨header, rest', hfound⟩ := (startsBlock_iff hstart.1 heof.2).1 hstarts
      cases hread.symm.trans hfound
  | case4 p t rest hstart hread ih =>
      rw [List.forall_mem_cons] at heof
      refine htake (fun _ hstarts => ?_) (ih heof.2)
      obtain ⟨header, rest', hfound⟩ := (startsBlock_iff hstart.1 heof.2).1 hstarts
      cases hread.symm.trans hfound
  | case5 p t rest hstart ih =>
      rw [List.forall_mem_cons] at heof
      refine htake (fun hdot hstarts => hstart ⟨?_, hdot⟩) (ih heof.2)
      exact hstarts.tries.1

/-- Ending the script neither adds a block nor loses one. -/
theorem countAll_finish (p : Progress) (stop : Location) :
    countAll (p.finish stop).scope.toNodes = p.count := by
  obtain ⟨hcount, hnil⟩ := finish_induction (motive := fun q => q.count = p.count)
    (fun q b _ _ h => (count_closeBlock _ none stop).trans h) p rfl
  rw [← hcount, count, hnil, countAll_toNodes]
  rfl

end Progress

/-- A tree has no blocks exactly if no header starts in its tokens. -/
theorem countAll_parse_eq_zero_iff {tokens ts : List Token}
    (h : tokens.takeWhile (!·.isEof) = ts) :
    countAll (parse tokens).nodes = 0 ↔ Free StartsBlock false (ts.map toPiece) [] := by
  subst h
  rw [parse_eq, Progress.countAll_finish]
  exact (Progress.count_run isEof_of_mem_takeWhile).2

end Node

end LetBlocks
