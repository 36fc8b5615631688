import LetBlocks.Proofs.Header.Machine
import LetBlocks.Proofs.Node.Brackets
import LetBlocks.Proofs.Output.Runs

/-!
If a block that is closed stands in an initializer, the machine takes it as a whole: it either
fails inside, or behind the block it has the brackets open that it had before. Anywhere else it
fails at once. The same is true of the layers that are written for the block, and whether the
machine fails is decided by the body in both. So what is written for closed blocks is as good
as the source to the machine. A block that is not closed it never leaves: the braces that are
added at the end of the output do not bring it to anything new.
-/

namespace LetBlocks.Output

open Token Header Header.State Node

/-! ### Plain runs -/

/-- What is written of a plain run: all but some blanks at its ends, and trivia behind it. -/
theorem plainPieces_eq (trim first last : Bool) (ts : List Token) :
    ∃ before kept after feed, ts = before ++ kept ++ after ∧
      plainPieces trim first last ts = copied kept ++ feed ∧
      (∀ p ∈ copied before, p.kind.isTrivia = true) ∧
      (∀ p ∈ copied after, p.kind.isTrivia = true) ∧ ∀ p ∈ feed, p.kind.isTrivia = true := by
  have hstart : ∃ before, ts = before ++ (if trim && first then trimStart ts else ts) ∧
      ∀ t ∈ before, t.isBlank = true := by
    split_ifs
    · exact exists_trimStart ts
    · exact ⟨[], rfl, by simp⟩
  obtain ⟨before, hts, hbefore⟩ := hstart
  unfold plainPieces
  dsimp only
  generalize (if trim && first then trimStart ts else ts) = us at hts ⊢
  subst hts
  split_ifs
  · obtain ⟨after, hus, hafter⟩ := exists_trimEnd us
    obtain ⟨feed, hpieces, hfeed⟩ := closedPieces_cases (trimEnd us)
    refine ⟨before, trimEnd us, after, feed, ?_, hpieces, isTrivia_of_blanks hbefore,
      isTrivia_of_blanks hafter, hfeed⟩
    rw [List.append_assoc, ← hus]
  · exact ⟨before, us, [], [], by simp, by simp,
      isTrivia_of_blanks hbefore, by simp [copied], by simp⟩

theorem scan_plainPieces (s : State) (trim first last : Bool) (ts : List Token) :
    s.scan (plainPieces trim first last ts) = s.scan (copied ts) := by
  obtain ⟨before, kept, after, feed, rfl, hpieces, hbefore, hafter, hfeed⟩ :=
    plainPieces_eq trim first last ts
  rw [hpieces, copied_append, copied_append, scan_append, scan_of_isTrivia hfeed, scan_append,
    scan_of_isTrivia hafter, scan_append, scan_of_isTrivia hbefore]

/-! ### Layers -/

section Layers

variable {style : Style} {used : List Token} {d : Declaration}

theorem scan_valuePieces (hd : IsDeclaration used d) {opened : List Bracket}
    (hopened : opened ≠ []) :
    (value true opened).scan (valuePieces d) = value true opened := by
  cases hd with
  | bare => rfl
  | valued _ _ _ _ hinit =>
      have hscan := scan_plainPieces (value true opened) true true true
      exact (hscan _).trans (hinit.matched.scan fun _ => hopened)

theorem scan_operandPieces (hd : IsDeclaration used d) {opened : List Bracket}
    (hopened : opened ≠ []) :
    (value true opened).scan (operandPieces d) = value true opened := by
  unfold operandPieces
  split_ifs
  · have hopen : (value true opened).step (mark "(").sign = value true (.round :: opened) :=
      rfl
    rw [List.cons_append, scan_cons, hopen, scan_append, scan_valuePieces hd (by simp)]
    rfl
  · exact scan_valuePieces hd hopened

theorem isTrivia_layerNotePieces (style : Style) :
    ∀ p ∈ layerNotePieces style, p.kind.isTrivia = true := by
  unfold layerNotePieces
  split_ifs <;> simp [comment, Kind.isTrivia, Kind.isComment]

theorem isTrivia_valueNotePieces (style : Style) (d : Declaration) :
    ∀ p ∈ valueNotePieces style d, p.kind.isTrivia = true := by
  unfold valueNotePieces
  split_ifs <;> simp [comment, Kind.isTrivia, Kind.isComment]

/-- A layer leaves one brace open. -/
theorem scan_layerPieces (style : Style) (hd : IsDeclaration used d) (s : State) :
    s.scan (layerPieces style d) = s.enter [.curly] := by
  have hname : d.name.toPiece.sign = .name := Piece.sign_of_kind_identifier hd.kind_name
  cases s with
  | value seen opened =>
      have htry : (value seen opened).scan [word "try", mark "\x7b", word "throw", gap] =
          value true (.curly :: opened) := rfl
      have hclose : (value true (.curly :: opened)).scan [mark "\x7d"] = value true opened :=
        rfl
      have hcatch : (value true opened).scan [word "catch", mark "(", d.name.toPiece] =
          value true (.round :: opened) := by
        rw [scan_cons, scan_cons, scan_cons, hname]
        rfl
      have hend : (value true (.round :: opened)).scan [mark ")", mark "\x7b"] =
          value true (.curly :: opened) := rfl
      rw [layerPieces, scan_append, scan_append, scan_append, scan_append, scan_append,
        scan_append, htry, scan_operandPieces hd (by simp), hclose,
        scan_of_isTrivia (isTrivia_layerNotePieces style), hcatch,
        scan_of_isTrivia (isTrivia_valueNotePieces style d), hend]
      rfl
  | found => exact scan_found _
  | _ =>
      -- `try` is no parenthesis, and as a name it has a brace behind it
      rw [layerPieces_eq]
      exact scan_failed _

theorem scan_layers (style : Style) {ds : List Declaration}
    (hds : ∀ d ∈ ds, ∃ used, IsDeclaration used d) (hne : ds ≠ []) (s : State) :
    s.scan (ds.flatMap (layerPieces style)) = s.enter (List.replicate ds.length .curly) := by
  induction ds generalizing s with
  | nil => exact absurd rfl hne
  | cons d ds ih =>
      rw [List.forall_mem_cons] at hds
      obtain ⟨⟨used, hd⟩, hds⟩ := hds
      rw [List.flatMap_cons, scan_append, scan_layerPieces style hd]
      by_cases hnil : ds = []
      · subst hnil
        rfl
      · rw [ih hds hnil, enter_enter, List.length_cons, List.replicate_succ']

end Layers

/-! ### Above a brace -/

/-- Above a brace of the stack, which they do not close, these pieces turn the brackets
`opened` into `opened'`, or they make the machine fail. What is below the brace does not
matter. -/
def Frames (opened opened' : List Bracket) (ps : List Piece) : Prop :=
  (∀ below, (value true (opened ++ .curly :: below)).scan ps = failed) ∨
    ∀ below, (value true (opened ++ .curly :: below)).scan ps =
      value true (opened' ++ .curly :: below)

section Frames

variable {opened opened' opened'' : List Bracket} {ps qs : List Piece}

theorem Frames.nil (opened : List Bracket) : Frames opened opened [] := .inr fun _ => rfl

theorem Frames.append (hps : Frames opened opened' ps) (hqs : Frames opened' opened'' qs) :
    Frames opened opened'' (ps ++ qs) := by
  rcases hps with hps | hps
  · exact .inl fun below => by rw [scan_append, hps, scan_failed]
  · rcases hqs with hqs | hqs
    · exact .inl fun below => by rw [scan_append, hps, hqs]
    · exact .inr fun below => by rw [scan_append, hps, hqs]

theorem frames_token (t : Token) (h : t.closes? = some .curly → .curly ∈ opened) :
    Frames opened (t.bracketsAfter opened) [t.toPiece] := by
  have hne : ∀ below : List Bracket, opened ++ .curly :: below = [] → False := by simp
  cases hopens : t.opens? with
  | some bracket =>
      right
      intro below
      rw [scan_cons, step_value_of_opens? hopens, bracketsAfter_of_opens? hopens]
      rfl
  | none =>
      cases hcloses : t.closes? with
      | none =>
          right
          intro below
          rw [scan_cons, step_value_of_plain hopens hcloses fun hnil => (hne below hnil).elim,
            bracketsAfter_of_plain hopens hcloses, Bool.or_true]
          rfl
      | some bracket =>
          have hstep : ∀ below, (value true (opened ++ .curly :: below)).scan [t.toPiece] =
              if (opened ++ .curly :: below).head? = some bracket then
                value true (opened ++ .curly :: below).tail
              else failed :=
            fun below => step_value_of_closes? hcloses fun hnil => (hne below hnil).elim
          rw [Frames, bracketsAfter_of_closes? hcloses]
          simp only [hstep]
          cases opened with
          | nil =>
              -- only a closing brace would match, and here none can stand
              left
              intro below
              rw [if_neg]
              rintro ⟨⟩
              cases h hcloses
          | cons inner opened =>
              by_cases hinner : inner = bracket
              · subst hinner
                right
                simp
              · left
                simp [hinner]

theorem frames_run {ts : List Token} (h : Held opened ts) :
    Frames opened (ts.foldl bracketsAfter opened) (copied ts) := by
  induction ts generalizing opened with
  | nil => exact Frames.nil opened
  | cons t ts ih => exact (frames_token t h.1).append (ih h.2)

end Frames

/-! ### Closed blocks -/

def cross (passes : Bool) : State → State
  | value _ opened => if passes then value true opened else failed
  | found => found
  | _ => failed

theorem scan_closers {ps : List Piece} (h : ∀ p ∈ ps, p.sign = .closer .curly)
    (opened : List Bracket) :
    (value true (List.replicate ps.length .curly ++ opened)).scan ps = value true opened := by
  induction ps with
  | nil => rfl
  | cons p ps ih =>
      rw [List.forall_mem_cons] at h
      rw [scan_cons, h.1]
      exact ih h.2

/-- However many braces are on the stack before a body and are closed behind it, it is decided
in the body whether the machine passes. -/
theorem exists_passes {opened : List Bracket} {body : List Piece} (h : Frames [] opened body)
    (hcurly : .curly ∉ opened) :
    ∃ passes : Bool, ∀ closing : List Piece, closing ≠ [] →
      (∀ p ∈ closing, p.sign = .closer .curly) → ∀ below,
      (value true (List.replicate closing.length .curly ++ below)).scan (body ++ closing) =
        if passes then value true below else failed := by
  simp only [Frames, List.nil_append] at h
  rcases h with h | h
  · refine ⟨false, fun closing hne _ below => ?_⟩
    obtain ⟨p, ps, rfl⟩ := List.exists_cons_of_ne_nil hne
    rw [scan_append, List.length_cons, List.replicate_succ, List.cons_append, h, scan_failed]
    rfl
  · cases opened with
    | nil =>
        refine ⟨true, fun closing hne hclosing below => ?_⟩
        obtain ⟨p, ps, rfl⟩ := List.exists_cons_of_ne_nil hne
        rw [scan_append, List.length_cons, List.replicate_succ, List.cons_append, h]
        exact scan_closers hclosing below
    | cons inner opened =>
        -- a bracket of another kind is still open, and the first brace does not match it
        refine ⟨false, fun closing hne hclosing below => ?_⟩
        obtain ⟨p, ps, rfl⟩ := List.exists_cons_of_ne_nil hne
        have hinner : inner ≠ .curly := fun hinner => hcurly (hinner ▸ List.mem_cons_self)
        have hleave : ∀ below, (value true (inner :: opened ++ below)).leave = failed := by
          intro below
          cases inner with
          | curly => exact absurd rfl hinner
          | _ => rfl
        rw [scan_append, List.length_cons, List.replicate_succ, List.cons_append, h, scan_cons,
          (List.forall_mem_cons.1 hclosing).1, step_closeCurly, hleave, scan_failed]
        rfl

theorem exists_cross {opened : List Bracket} {body : List Piece} (h : Frames [] opened body)
    (hcurly : .curly ∉ opened) :
    ∃ passes, ∀ opening closing : List Piece,
      (∀ s : State, s.scan opening = s.enter (List.replicate closing.length .curly)) →
        closing ≠ [] →
      (∀ p ∈ closing, p.sign = .closer .curly) →
      ∀ s : State, s.scan (opening ++ body ++ closing) = cross passes s := by
  obtain ⟨passes, hpasses⟩ := exists_passes h hcurly
  refine ⟨passes, fun opening closing hopening hne hclosing s => ?_⟩
  rw [List.append_assoc, scan_append, hopening]
  cases s with
  | value seen opened => exact hpasses closing hne hclosing opened
  | found => exact scan_found _
  | _ => exact scan_failed _

theorem frames_of_cross {ps : List Piece} {passes : Bool}
    (h : ∀ s : State, s.scan ps = cross passes s) (opened : List Bracket) :
    Frames opened opened ps := by
  cases passes with
  | false => exact .inl fun below => h _
  | true => exact .inr fun below => h _

/-- The machine crosses a block that the parser has closed. -/
theorem exists_cross_tokens {header : Header} {body : List Node} {t : Token} {span : Span}
    (hwell : WellFormed (.letBlock header body (some t) span)) {opened : List Bracket}
    (hframes : Frames [] opened (copied (tokensAll body))) (hcurly : .curly ∉ opened) :
    ∃ passes, ∀ s : State, s.scan (copied (Node.letBlock header body (some t) span).tokens) =
      cross passes s := by
  obtain ⟨hheader, hclosing, -⟩ := hwell
  obtain ⟨passes, hcross⟩ := exists_cross hframes hcurly
  refine ⟨passes, ?_⟩
  rw [Node.tokens, copied_append, copied_append]
  exact hcross _ [t.toPiece] hheader.scan (by simp)
    (by simpa using Piece.sign_of_closes? (hclosing t rfl).1)

mutual

/-- A closed node in the body of a block. -/
theorem frames_tokens :
    ∀ {node : Node} {opened : List Bracket}, node.WellFormed → node.isOpen = false →
    Braced true opened node → Frames opened (openedBy opened [node]) (copied node.tokens)
  | .plain ts, _, _, _, hbraced => frames_run (hbraced rfl)
  | .letBlock header body (some t) span, opened, hwell, _, hbraced => by
      have hframes := frames_tokensAll hwell.2.2 (hwell.2.1 t rfl).2 hbraced.1
      obtain ⟨passes, hcross⟩ := exists_cross_tokens hwell hframes (hbraced.2 rfl)
      exact frames_of_cross hcross opened

theorem frames_tokensAll : ∀ {nodes : List Node} {opened : List Bracket}, WellFormedAll nodes →
    (∀ n ∈ nodes, n.isOpen = false) → BracedAll true opened nodes →
    Frames opened (openedBy opened nodes) (copied (tokensAll nodes))
  | [], opened, _, _, _ => Frames.nil opened
  | node :: nodes, opened, hwell, hclosed, hbraced => by
      rw [List.forall_mem_cons] at hclosed
      rw [tokensAll, copied_append, openedBy_cons]
      exact (frames_tokens hwell.1 hclosed.1 hbraced.1).append
        (frames_tokensAll hwell.2.2.2 hclosed.2 hbraced.2)

end

theorem scan_openingPieces {style : Style} (hstyle : style.es3 = true) {header : Header}
    (hheader : IsHeader header.tokens header.declarations) (s : State) :
    s.scan (openingPieces style header) =
      s.enter (List.replicate header.declarations.length .curly) := by
  rw [openingPieces, if_neg hheader.ne_nil, if_pos hstyle,
    scan_layers style hheader.each hheader.ne_nil]

theorem closingPieces_layers {style : Style} (hstyle : style.es3 = true) {header : Header}
    (h : header.declarations ≠ []) (closing : Option Token) :
    closingPieces style header closing =
      List.replicate header.declarations.length (mark "\x7d") := by
  rw [closingPieces, if_neg h, if_pos hstyle]

theorem sign_of_mem_replicate (n : Nat) :
    ∀ p ∈ List.replicate n (mark "\x7d"), p.sign = .closer .curly := by
  intro p hp
  rw [List.eq_of_mem_replicate hp]
  rfl

mutual

/-- What is written for closed nodes is as good as their source to the machine. -/
theorem scan_writtenNode {style : Style} (hstyle : style.es3 = true) :
    ∀ (node : Node) {inBlock trim first last : Bool} {opened : List Bracket},
    node.WellFormed → node.isOpen = false → Braced inBlock opened node →
    ∀ s : State, s.scan (writtenNode style trim first last node) = s.scan (copied node.tokens)
  | .plain ts, _, trim, first, last, _, _, _, _ =>
      fun s => scan_plainPieces s trim first last ts
  | .letBlock header body (some t) span, _, _, _, _, _, hwell, _, hbraced => by
      intro s
      obtain ⟨hheader, hclosing, hbody⟩ := hwell
      obtain ⟨hcloses, hclosed⟩ := hclosing t rfl
      obtain ⟨passes, hcross⟩ :=
        exists_cross (frames_tokensAll hbody hclosed hbraced.1) (hbraced.2 rfl)
      have hsource : s.scan (copied header.tokens ++ copied (tokensAll body) ++ [t.toPiece]) =
          cross passes s :=
        hcross _ _ hheader.scan (by simp) (by simpa using Piece.sign_of_closes? hcloses) s
      have hwritten := hcross (openingPieces style header)
        (List.replicate header.declarations.length (mark "\x7d"))
          (by simpa using scan_openingPieces hstyle hheader)
        (by simpa using hheader.ne_nil) (sign_of_mem_replicate _) s
      rw [scan_append, scan_append] at hwritten
      rw [writtenNode, closingPieces_layers hstyle hheader.ne_nil, scan_append, scan_append,
        scan_writtenFrom hstyle body hbody hclosed hbraced.1, hwritten, ← hsource, Node.tokens,
        copied_append, copied_append]
      rfl

theorem scan_writtenFrom {style : Style} (hstyle : style.es3 = true) :
    ∀ (nodes : List Node) {inBlock trim first : Bool} {opened : List Bracket},
    WellFormedAll nodes → (∀ n ∈ nodes, n.isOpen = false) → BracedAll inBlock opened nodes →
    ∀ s : State, s.scan (writtenFrom style trim first nodes) =
      s.scan (copied (tokensAll nodes))
  | [], _, _, _, _, _, _, _ => fun _ => rfl
  | node :: nodes, _, _, _, _, hwell, hclosed, hbraced => by
      intro s
      rw [List.forall_mem_cons] at hclosed
      rw [writtenFrom, scan_append, scan_writtenNode hstyle node hwell.1 hclosed.1 hbraced.1,
        scan_writtenFrom hstyle nodes hwell.2.2.2 hclosed.2 hbraced.2, tokensAll,
        copied_append, scan_append]

end

/-! ### Open blocks -/

theorem leave_ne_found {s : State} (h : s ≠ found) : s.leave ≠ found := by
  unfold State.leave
  split
  · simp
  · exact absurd rfl h
  · simp

/-- Closing braces do not lead to a header. -/
theorem scan_closers_ne_found {s : State} (h : s ≠ found) {ps : List Piece}
    (hps : ∀ p ∈ ps, p.sign = .closer .curly) : s.scan ps ≠ found := by
  induction ps generalizing s with
  | nil => exact h
  | cons p ps ih =>
      rw [List.forall_mem_cons] at hps
      rw [scan_cons, hps.1, step_closeCurly]
      exact ih (leave_ne_found h) hps.2

theorem scan_failed_ne_found (ps : List Piece) : failed.scan ps ≠ found := by
  rw [scan_failed]
  simp

mutual

/-- The machine finds no header that ends inside a block. -/
theorem scan_writtenNode_ne_found {style : Style} (hstyle : style.es3 = true) :
    ∀ (node : Node) {inBlock trim first last : Bool} {opened : List Bracket},
    node.WellFormed → node.isPlain = false → Braced inBlock opened node →
      ∀ s : State, s ≠ found →
    s.scan (writtenNode style trim first last node) ≠ found
  | .plain _, _, _, _, _, _, _, hplain, _ => by cases hplain
  | .letBlock header body closing span, _, _, _, _, _, hwell, _, hbraced => by
      intro s hs
      obtain ⟨hheader, -, hbody⟩ := hwell
      obtain ⟨d, ds, hds⟩ := List.exists_cons_of_ne_nil hheader.ne_nil
      rw [writtenNode, closingPieces_layers hstyle hheader.ne_nil, scan_append, scan_append,
        scan_openingPieces hstyle hheader]
      refine scan_closers_ne_found ?_ (sign_of_mem_replicate _)
      cases s with
      | value seen opened =>
          rw [hds]
          exact scan_writtenFrom_ne_found hstyle body hbody hbraced.1
            (List.replicate ds.length .curly ++ opened)
      | found => exact absurd rfl hs
      | _ => exact scan_failed_ne_found _

theorem scan_writtenFrom_ne_found {style : Style} (hstyle : style.es3 = true) :
    ∀ (nodes : List Node) {trim first : Bool} {opened : List Bracket},
    WellFormedAll nodes → BracedAll true opened nodes → ∀ below : List Bracket,
    (value true (opened ++ .curly :: below)).scan (writtenFrom style trim first nodes) ≠ found
  | [], _, _, _, _, _ => by simp [writtenFrom]
  | node :: nodes, trim, first, opened, hwell, hbraced => by
      intro below
      obtain ⟨hnode, hopen, -, hnodes⟩ := hwell
      rw [writtenFrom, scan_append]
      cases hisOpen : node.isOpen with
      | true =>
          rw [hopen hisOpen]
          exact scan_writtenNode_ne_found hstyle node hnode (isPlain_of_isOpen hisOpen)
            hbraced.1 _ (by simp)
      | false =>
          rw [scan_writtenNode hstyle node hnode hisOpen hbraced.1]
          rcases frames_tokens hnode hisOpen hbraced.1 with hfails | hpasses
          · rw [hfails]
            exact scan_failed_ne_found _
          · rw [hpasses]
            exact scan_writtenFrom_ne_found hstyle nodes hnodes hbraced.2 below

end

end LetBlocks.Output
