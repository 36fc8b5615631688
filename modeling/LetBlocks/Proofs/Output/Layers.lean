import LetBlocks.Proofs.Output.Crossing
import LetBlocks.Proofs.Output.Native

/-!
Layers are no blocks, and a `let` of a plain run that started no header in the source starts
none in the output. The machine for headers, started behind such a `let`, goes through the
output as it goes through the source, up to the end of the body in which it was started. The
brackets it has on its stack are open to the parser too, so the brace that closes the body
matches none of them: there the machine fails, in the source as in the output, unless it was
done before. Initializers are copied, so there must be no `let` in them.
-/

namespace LetBlocks

open Token Piece

theorem Token.bracketsAfter_of_sign {t : Token} {opened : List Bracket}
    (hopener : ∀ bracket, t.toPiece.sign ≠ .opener bracket)
    (hcloser : ∀ bracket, t.toPiece.sign ≠ .closer bracket) :
    t.bracketsAfter opened = opened := by
  apply bracketsAfter_of_plain
  · rw [Option.eq_none_iff_forall_not_mem]
    exact fun bracket h => hopener bracket (sign_of_opens? h)
  · rw [Option.eq_none_iff_forall_not_mem]
    exact fun bracket h => hcloser bracket (sign_of_closes? h)

namespace Header.State

/-- The machine started where the brackets `outer` were open, and its stack fits the brackets
that are open now. -/
def Sync (outer opened : List Bracket) : State → Prop
  | start => opened = outer
  | names _ => opened = .round :: outer
  | named => opened = .round :: outer
  | value _ inner => opened = inner ++ .round :: outer
  | brace => opened = outer
  | found => True
  | failed => True

variable {outer opened : List Bracket} {s : State}

theorem Sync.step_opener (h : s.Sync outer opened) (bracket : Bracket) :
    (s.step (.opener bracket)).Sync outer (bracket :: opened) := by
  cases s with
  | start =>
      cases bracket with
      | round => exact congrArg (List.cons _) h
      | _ => trivial
  | value seen inner => exact congrArg (List.cons _) h
  | brace => cases bracket <;> trivial
  | _ => trivial

theorem Sync.step_closer (h : s.Sync outer opened) {t : Token} {bracket : Bracket}
    (hcloses : t.closes? = some bracket) :
    (s.step (.closer bracket)).Sync outer (t.bracketsAfter opened) := by
  cases s with
  | names declared =>
      obtain rfl : opened = .round :: outer := h
      cases bracket with
      | round =>
          cases declared with
          | true => exact bracketsAfter_cons hcloses outer
          | false => trivial
      | _ => trivial
  | named =>
      obtain rfl : opened = .round :: outer := h
      cases bracket with
      | round => exact bracketsAfter_cons hcloses outer
      | _ => trivial
  | value seen inner =>
      obtain rfl : opened = inner ++ .round :: outer := h
      cases inner with
      | nil =>
          cases bracket with
          | round =>
              cases seen with
              | true => exact bracketsAfter_cons hcloses outer
              | false => trivial
          | _ => cases seen <;> trivial
      | cons innermost inner =>
          have hstep : (value seen (innermost :: inner)).step (.closer bracket) =
              if innermost = bracket then value true inner else failed := rfl
          rw [hstep]
          split_ifs with hmatch
          · subst hmatch
            exact bracketsAfter_cons hcloses _
          · trivial
  | _ => trivial

/-- A token that is no bracket. -/
theorem Sync.step_other (h : s.Sync outer opened) {sign : Sign}
    (hopener : ∀ bracket, sign ≠ .opener bracket)
    (hcloser : ∀ bracket, sign ≠ .closer bracket) : (s.step sign).Sync outer opened := by
  cases sign with
  | trivia => rwa [step_trivia]
  | name =>
      cases s with
      | names | value => exact h
      | _ => trivial
  | comma =>
      cases s with
      | named => exact h
      | value seen inner =>
          cases inner with
          | nil =>
              cases seen with
              | true => exact h
              | false => trivial
          | cons innermost inner => exact h
      | _ => trivial
  | equals =>
      cases s with
      | named | value => exact h
      | _ => trivial
  | opener bracket => exact absurd rfl (hopener bracket)
  | closer bracket => exact absurd rfl (hcloser bracket)
  | other =>
      cases s with
      | value => exact h
      | _ => trivial

theorem Sync.step (h : s.Sync outer opened) (t : Token) :
    (s.step t.toPiece.sign).Sync outer (t.bracketsAfter opened) := by
  cases hsign : t.toPiece.sign with
  | opener bracket =>
      rw [bracketsAfter_of_opens? (sign_eq_opener_iff.1 hsign)]
      exact h.step_opener bracket
  | closer bracket => exact h.step_closer (sign_eq_closer_iff.1 hsign)
  | _ =>
      rw [bracketsAfter_of_sign (by simp [hsign]) (by simp [hsign])]
      exact h.step_other (by simp) (by simp)

/-- What holds of the machine's stack and the parser's before a run holds behind it. -/
theorem Sync.scan (h : s.Sync outer opened) (ts : List Token) :
    (s.scan (ts.map toPiece)).Sync outer (ts.foldl bracketsAfter opened) := by
  induction ts generalizing s opened with
  | nil => exact h
  | cons t ts ih => exact ih (h.step t)

end Header.State

namespace Output

open Header Header.State Node

/-! ### From the output to the source -/

/-- A header that the machine finds in `out` it finds in `src` too, if its stack fits the
brackets that are open. -/
def Carries (opened : List Bracket) (src out : List Piece) : Prop :=
  ∀ (s : State) (outer : List Bracket), s.Sync outer opened → s.scan out = found →
    s.scan src = found

theorem sync_cross {outer opened : List Bracket} {s : State} (h : s.Sync outer opened)
    (passes : Bool) : (cross passes s).Sync outer opened := by
  cases s with
  | value seen inner =>
      cases passes with
      | true => exact h
      | false => trivial
  | _ => trivial

theorem sync_tokens {inBlock : Bool} {outer opened : List Bracket} {s : State} {node : Node}
    (h : s.Sync outer opened) (hwell : node.WellFormed) (hclosed : node.isOpen = false)
    (hbraced : Braced inBlock opened node) :
    (s.scan (copied node.tokens)).Sync outer (openedBy opened [node]) := by
  cases node with
  | plain ts => exact h.scan ts
  | letBlock header body closing span =>
      cases closing with
      | none => cases hclosed
      | some t =>
          have hframes := frames_tokensAll hwell.2.2 (hwell.2.1 t rfl).2 hbraced.1
          obtain ⟨passes, hcross⟩ := exists_cross_tokens hwell hframes (hbraced.2 rfl)
          rw [hcross]
          exact sync_cross h passes

theorem carries_nodes {style : Style} (hstyle : style.es3 = true) {nodes : List Node}
    {inBlock trim first : Bool} {opened : List Bracket} {src out : List Piece}
    (hwell : WellFormedAll nodes) (hbraced : BracedAll inBlock opened nodes)
    (hopen : (∃ n ∈ nodes, n.isOpen = true) → ∀ p ∈ out, p.sign = .closer .curly)
    (h : Carries (openedBy opened nodes) src out) :
    Carries opened (copied (tokensAll nodes) ++ src)
      (writtenFrom style trim first nodes ++ out) := by
  induction nodes generalizing opened first with
  | nil => exact h
  | cons node nodes ih =>
      obtain ⟨hnode, hlast, -, hnodes⟩ := hwell
      intro s outer hsync hfound
      rw [writtenFrom, List.append_assoc, scan_append] at hfound
      rw [tokensAll, copied_append, List.append_assoc, scan_append]
      rw [openedBy_cons] at h
      cases hisOpen : node.isOpen with
      | true =>
          obtain rfl := hlast hisOpen
          by_cases hs : s = found
          · rw [hs, scan_found, scan_found]
          · have hne : s.scan (writtenNode style trim first true node) ≠ found :=
              scan_writtenNode_ne_found hstyle node hnode (isPlain_of_isOpen hisOpen) hbraced.1
                s hs
            exact absurd hfound (scan_closers_ne_found hne
              (hopen ⟨node, List.mem_cons_self, hisOpen⟩))
      | false =>
          rw [scan_writtenNode hstyle node hnode hisOpen hbraced.1] at hfound
          have hopen' : (∃ n ∈ nodes, n.isOpen = true) → ∀ p ∈ out, p.sign = .closer .curly :=
            fun ⟨n, hn, hnopen⟩ => hopen ⟨n, List.mem_cons_of_mem _ hn, hnopen⟩
          exact ih hnodes hbraced.2 hopen' h _ outer
            (sync_tokens hsync hnode hisOpen hbraced.1) hfound

/-- The brace that closes a body matches no bracket that the machine has on its stack. -/
theorem leave_of_sync {outer opened : List Bracket} {s : State} (h : s.Sync outer opened)
    (hcurly : .curly ∉ opened) (hs : s ≠ found) : s.leave = failed := by
  unfold State.leave
  split
  · next inner =>
    obtain rfl : opened = .curly :: inner ++ .round :: outer := h
    exact absurd List.mem_cons_self hcurly
  · exact absurd rfl hs
  · rfl

theorem carries_closing {style : Style} (hstyle : style.es3 = true) {inBlock : Bool}
    {opened : List Bracket} {header : Header} {body : List Node} {closing : Option Token}
    {span : Span} {src out : List Piece}
    (hwell : WellFormed (.letBlock header body closing span))
    (hbraced : Braced inBlock opened (.letBlock header body closing span))
    (hopen : closing = none → ∀ p ∈ out, p.sign = .closer .curly) :
    Carries (openedBy [] body) (copied closing.toList ++ src)
      (closingPieces style header closing ++ out) := by
  intro s outer hsync hfound
  by_cases hs : s = found
  · rw [hs, scan_found]
  · rw [closingPieces_layers hstyle hwell.1.ne_nil, scan_append] at hfound
    cases closing with
    | none =>
        have hne := scan_closers_ne_found hs (sign_of_mem_replicate header.declarations.length)
        exact absurd hfound (scan_closers_ne_found hne (hopen rfl))
    | some t =>
        obtain ⟨d, ds, hds⟩ := List.exists_cons_of_ne_nil hwell.1.ne_nil
        have hleave := leave_of_sync hsync (hbraced.2 rfl) hs
        have hfirst : (mark "\x7d").sign = .closer .curly := rfl
        rw [hds, List.length_cons, List.replicate_succ, scan_cons, hfirst, step_closeCurly,
          hleave, scan_failed, scan_failed] at hfound
        cases hfound

/-! ### Where a header could start -/

theorem free_run {ts : List Token} {opened : List Bracket} {src out : List Piece}
    {dotted : Bool} (h : Carries (ts.foldl bracketsAfter opened) src out)
    (hfree : Free Heads dotted (copied ts) src) : Free Heads dotted (copied ts) out := by
  induction ts generalizing opened dotted with
  | nil => trivial
  | cons t ts ih =>
      refine ⟨?_, ih h hfree.2⟩
      rintro hdotted ⟨hlet, hfound⟩
      refine hfree.1 hdotted ⟨hlet, ?_⟩
      rw [scan_append] at hfound ⊢
      -- the machine starts here, so its stack fits whatever is open
      have hstart : start.Sync (t.bracketsAfter opened) (t.bracketsAfter opened) := rfl
      exact h _ _ (hstart.scan ts) hfound

theorem not_heads_of_kind {p : Piece} (h : p.kind ≠ .kwLet) (more : List Piece) :
    ¬ Heads (p :: more) :=
  fun hheads => h hheads.1

theorem free_heads_plainPieces (trim first last : Bool) {ts : List Token}
    {opened : List Bracket} {src out : List Piece}
    (h : Carries (ts.foldl bracketsAfter opened) src out)
    (hfree : Free Heads false (copied ts) src) (dotted : Bool) :
    Free Heads dotted (plainPieces trim first last ts) out := by
  obtain ⟨before, kept, after, feed, rfl, hpieces, hbefore, hafter, hfeed⟩ :=
    plainPieces_eq trim first last ts
  rw [copied_append, copied_append, free_append, free_append,
    dotsAll_of_isTrivia hbefore] at hfree
  have hkept : Carries (kept.foldl bracketsAfter (before.foldl bracketsAfter opened))
      (copied after ++ src)
      (feed ++ out) := by
    intro s outer hsync hfound
    have hsync' := hsync.scan after
    rw [scan_append, scan_of_isTrivia hfeed] at hfound
    rw [List.foldl_append, List.foldl_append] at h
    rw [scan_append]
    rw [show s.scan (after.map toPiece) = s from scan_of_isTrivia hafter s] at hsync'
    rw [scan_of_isTrivia hafter]
    exact h s outer hsync' hfound
  rw [hpieces, free_append]
  refine ⟨(free_run hkept hfree.1.2).weaken dotted,
    free_of_not_start fun p hp => not_heads_of_kind ?_⟩
  exact Kind.ne_kwLet_of_isTrivia (hfeed p hp)

/-! ### Layers -/

theorem kind_of_mem_plainPieces (trim first last : Bool) {ts : List Token}
    (h : ∀ t ∈ ts, t.kind ≠ .kwLet) :
    ∀ p ∈ plainPieces trim first last ts, p.kind ≠ .kwLet := by
  obtain ⟨before, kept, after, feed, rfl, hpieces, -, -, hfeed⟩ :=
    plainPieces_eq trim first last ts
  rw [List.forall_mem_append, List.forall_mem_append] at h
  rw [hpieces, List.forall_mem_append, copied, List.forall_mem_map]
  exact ⟨h.1.2, fun p hp => Kind.ne_kwLet_of_isTrivia (hfeed p hp)⟩

theorem kind_of_mem_valuePieces {d : Declaration}
    (h : ∀ init ∈ d.initializer, ∀ t ∈ init, t.kind ≠ .kwLet) :
    ∀ p ∈ valuePieces d, p.kind ≠ .kwLet := by
  unfold valuePieces
  cases hinit : d.initializer with
  | none => simp [word]
  | some init => exact kind_of_mem_plainPieces true true true (h init hinit)

theorem kind_of_mem_layerPieces (style : Style) {used : List Token} {d : Declaration}
    (hd : IsDeclaration used d) (h : ∀ init ∈ d.initializer, ∀ t ∈ init, t.kind ≠ .kwLet) :
    ∀ p ∈ layerPieces style d, p.kind ≠ .kwLet := by
  have hvalue := kind_of_mem_valuePieces h
  have hoperand : ∀ p ∈ operandPieces d, p.kind ≠ .kwLet := by
    unfold operandPieces
    split_ifs
    · simpa [mark, or_imp, forall_and] using hvalue
    · exact hvalue
  have hnote : ∀ p ∈ layerNotePieces style, p.kind ≠ .kwLet :=
    fun p hp => Kind.ne_kwLet_of_isTrivia (isTrivia_layerNotePieces style p hp)
  have hvalueNote : ∀ p ∈ valueNotePieces style d, p.kind ≠ .kwLet :=
    fun p hp => Kind.ne_kwLet_of_isTrivia (isTrivia_valueNotePieces style d p hp)
  have hname : d.name.toPiece.kind ≠ .kwLet := by simp [hd.kind_name]
  rw [layerPieces]
  simp only [List.forall_mem_append]
  refine ⟨⟨⟨⟨⟨⟨?_, hoperand⟩, ?_⟩, hnote⟩, ?_⟩, hvalueNote⟩, ?_⟩
  · decide
  · decide
  · rw [List.forall_mem_cons, List.forall_mem_cons, List.forall_mem_singleton]
    exact ⟨by decide, by decide, hname⟩
  · decide

theorem kind_of_mem_openingPieces {style : Style} (hstyle : style.es3 = true) {header : Header}
    (hheader : IsHeader header.tokens header.declarations)
    (h : ∀ init ∈ header.declarations.filterMap Declaration.initializer, ∀ t ∈ init, t.kind ≠
      .kwLet) :
    ∀ p ∈ openingPieces style header, p.kind ≠ .kwLet := by
  rw [openingPieces, if_neg hheader.ne_nil, if_pos hstyle]
  intro p hp
  obtain ⟨d, hd, hp⟩ := List.mem_flatMap.1 hp
  obtain ⟨used, hused⟩ := hheader.each d hd
  exact kind_of_mem_layerPieces style hused
    (fun init hinit => h init (List.mem_filterMap.2 ⟨d, hd, hinit⟩)) p hp

mutual

theorem free_heads_writtenNode {style : Style} (hstyle : style.es3 = true) :
    ∀ (node : Node) {inBlock trim first last : Bool} {opened : List Bracket}
      {src out : List Piece},
    node.WellFormed → Braced inBlock opened node → node.FreeRuns Heads src →
    (∀ init ∈ node.initializers, ∀ t ∈ init, t.kind ≠ .kwLet) →
    Carries (openedBy opened [node]) src out →
    (node.isOpen = true → ∀ p ∈ out, p.sign = .closer .curly) → ∀ dotted : Bool,
    Free Heads dotted (writtenNode style trim first last node) out
  | .plain ts, _, trim, first, last, _, _, _, _, _, hfree, _, h, _ =>
      free_heads_plainPieces trim first last h hfree
  | .letBlock header body closing span, _, _, _, _, _, src, out, hwell, hbraced, hfree, hinit,
      _, hopen => by
      intro dotted
      obtain ⟨hheader, hclosing, hbody⟩ := hwell
      rw [initializers, List.forall_mem_append] at hinit
      have hopen' : closing = none → ∀ p ∈ out, p.sign = .closer .curly :=
        fun hnone => hopen (by rw [hnone]; rfl)
      have hcarries : Carries (openedBy [] body) (copied closing.toList ++ src)
          (closingPieces style header closing ++ out) :=
        carries_closing hstyle ⟨hheader, hclosing, hbody⟩ hbraced hopen'
      have hend : (∃ n ∈ body, n.isOpen = true) →
          ∀ p ∈ closingPieces style header closing ++ out, p.sign = .closer .curly := by
        rintro ⟨n, hn, hnopen⟩
        rw [closingPieces_layers hstyle hheader.ne_nil, List.forall_mem_append]
        refine ⟨sign_of_mem_replicate _, hopen' ?_⟩
        rw [Option.eq_none_iff_forall_not_mem]
        intro t ht
        rw [(hclosing t ht).2 n hn] at hnopen
        cases hnopen
      have hopening := kind_of_mem_openingPieces hstyle hheader hinit.1
      rw [writtenNode, free_append, free_append]
      refine ⟨⟨free_of_not_start fun p hp => not_heads_of_kind (hopening p hp), ?_⟩,
        free_of_not_start fun p hp => not_heads_of_kind ?_⟩
      · exact free_heads_writtenFrom hstyle body hbody hbraced.1 hfree hinit.2 hcarries hend _
      · rw [closingPieces_layers hstyle hheader.ne_nil] at hp
        rw [List.eq_of_mem_replicate hp]
        decide

theorem free_heads_writtenFrom {style : Style} (hstyle : style.es3 = true) :
    ∀ (nodes : List Node) {inBlock trim first : Bool} {opened : List Bracket}
      {src out : List Piece},
    WellFormedAll nodes → BracedAll inBlock opened nodes → FreeRunsAll Heads nodes src →
    (∀ init ∈ initializersAll nodes, ∀ t ∈ init, t.kind ≠ .kwLet) →
    Carries (openedBy opened nodes) src out →
    ((∃ n ∈ nodes, n.isOpen = true) → ∀ p ∈ out, p.sign = .closer .curly) → ∀ dotted : Bool,
    Free Heads dotted (writtenFrom style trim first nodes) out
  | [], _, _, _, _, _, _, _, _, _, _, _, _ => fun _ => trivial
  | node :: nodes, _, trim, _, opened, src, out, hwell, hbraced, hfree, hinit, h, hopen => by
      intro dotted
      obtain ⟨hnode, hlast, -, hnodes⟩ := hwell
      rw [initializersAll, List.forall_mem_append] at hinit
      rw [openedBy_cons] at h
      have hopen' : (∃ n ∈ nodes, n.isOpen = true) → ∀ p ∈ out, p.sign = .closer .curly :=
        fun ⟨n, hn, hnopen⟩ => hopen ⟨n, List.mem_cons_of_mem _ hn, hnopen⟩
      have hcarries : Carries (openedBy opened [node]) (copied (tokensAll nodes) ++ src)
          (writtenFrom style trim false nodes ++ out) :=
        carries_nodes hstyle hnodes hbraced.2 hopen' h
      rw [writtenFrom, free_append]
      refine ⟨free_heads_writtenNode hstyle node hnode hbraced.1 hfree.1 hinit.1 hcarries ?_
        dotted,
        free_heads_writtenFrom hstyle nodes hnodes hbraced.2 hfree.2 hinit.2 h hopen' _⟩
      intro hisOpen
      rw [hlast hisOpen]
      exact hopen ⟨node, List.mem_cons_self, hisOpen⟩

end

/-! ### The output -/

/-- The parser has left no `let` in a plain run behind which the machine finds a header. -/
theorem freeRuns_heads_parse (tokens : List Token) :
    FreeRunsAll Heads (parse tokens).nodes [] := by
  obtain ⟨hwell, htokens⟩ := parse_spec tokens
  have hS : ∀ (t : Token) (ts : List Token), (∀ u ∈ ts, u.isEof = false) →
      Heads ((t :: ts).map toPiece) →
      t.kind = .kwLet ∧ ¬ ∀ header rest, Header.read t ts ≠ .found header rest := by
    rintro t ts - ⟨hlet, hfound⟩
    obtain ⟨header, rest, hread⟩ := (scan_eq_found_iff t ts).1 hfound
    exact ⟨hlet, fun hnone => hnone header rest hread⟩
  have heof : ∀ t ∈ tokensAll (parse tokens).nodes ++ [], t.isEof = false := by
    rw [List.append_nil, htokens]
    exact isEof_of_mem_takeWhile
  have hnone : ∀ r ∈ readings false (rolesAll (parse tokens).nodes) [], ∀ header rest, r ≠
      .found header rest := by
    rintro r hr header rest rfl
    exact (readings_parse tokens).2 header rest hr
  exact freeRunsAll_of_readings hS _ hwell (by simp) heof hnone

end Output

/-- There are no let-blocks in the output for the third edition, whatever is wrong with the
headers, the brackets and the bodies of the script, if there is no `let` in its
initializers. -/
theorem blockCount_compile_layers (annotate : Bool) (text : Text)
    (hlex : (Token.lex (Source.ofText text)).diagnostics = [])
    (hinit : ∀ init ∈
      Node.initializersAll (Node.parse (Token.lex (Source.ofText text)).tokens).nodes,
      ∀ t ∈ init, t.kind ≠ .kwLet) :
    Node.blockCount
      (Node.parse
        (Token.lex (Source.ofText (compile { es3 := true, annotate } text))).tokens).nodes =
      0 := by
  obtain ⟨hscript, hstream⟩ := Output.stream_compile { es3 := true, annotate } hlex
  obtain ⟨ts, -, hbefore, hpieces⟩ := Token.exists_lex hscript
  have hwell := (Node.parse_spec (Token.lex (Source.ofText text)).tokens).1
  have hbraced := Node.bracedAll_parse (Token.lex (Source.ofText text)).tokens
  have hfree := Output.freeRuns_heads_parse (Token.lex (Source.ofText text)).tokens
  rw [Node.blockCount_eq_countAll, Node.countAll_parse_eq_zero_iff hbefore, hpieces, hstream,
    Output.written]
  refine (Output.free_heads_writtenFrom rfl _ hwell hbraced hfree hinit ?_ (by simp) false).imp
    StartsBlock.heads
  exact fun s outer _ hfound => hfound

/-- Two of the headers are not complete, a bracket does not match, and the last body does not
end. -/
theorem blockCount_compile_layers_degraded :
    let text := utf8 "let (x = f(let (a = 1, c) \x7b [a \x7d, 2) \x7b let (b) \x7b let (y"
    (Token.lex (Source.ofText text)).diagnostics = [] ∧
      Node.blockCount (Node.parse (Token.lex (Source.ofText text)).tokens).nodes = 2 ∧
      Node.blockCount
        (Node.parse
          (Token.lex
            (Source.ofText (compile { es3 := true, annotate := true } text))).tokens).nodes =
        0 := by
  intro text
  have hlex : (Token.lex (Source.ofText text)).diagnostics = [] := by decide +kernel
  refine ⟨hlex, ?_, blockCount_compile_layers true text hlex ?_⟩
  · rw [Node.blockCount_eq_countAll]
    decide +kernel
  · decide +kernel

end LetBlocks
