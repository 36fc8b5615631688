import LetBlocks.Proofs.Node.PlainRuns
import LetBlocks.Proofs.Output.Relex

/-!
Native output is compiled to itself exactly if no initializer holds a let-block. An initializer
is copied as it is, so a block inside it is still a block in the output, and the next run
writes it anew. Everything else that is written starts no block: a plain run has no attempts at
headers left in it, a name follows the `let` of a native block, and the other pieces are no
`let` at all.
-/

namespace LetBlocks

open Token Piece

namespace Node

mutual

/-- The initializers in the headers of a node, at all depths. -/
def initializers : Node → List (List Token)
  | plain _ => []
  | letBlock header body _ _ =>
    header.declarations.filterMap Declaration.initializer ++ initializersAll body

def initializersAll : List Node → List (List Token)
  | [] => []
  | node :: nodes => node.initializers ++ initializersAll nodes

end

mutual

theorem isInitializer_of_mem : ∀ {node : Node}, node.WellFormed →
    ∀ init ∈ node.initializers, Header.IsInitializer init
  | .plain _, _ => by simp [initializers]
  | .letBlock header body _ _, hwell => by
      obtain ⟨hheader, -, hbody⟩ := hwell
      rw [initializers, List.forall_mem_append]
      refine ⟨?_, isInitializer_of_mem_all hbody⟩
      intro init hinit
      obtain ⟨d, hd, hsome⟩ := List.mem_filterMap.1 hinit
      obtain ⟨used, hused⟩ := hheader.each d hd
      cases hused with
      | bare => cases hsome
      | valued _ _ _ _ hinit =>
          cases hsome
          exact hinit

theorem isInitializer_of_mem_all : ∀ {nodes : List Node}, WellFormedAll nodes →
    ∀ init ∈ initializersAll nodes, Header.IsInitializer init
  | [], _ => by simp [initializersAll]
  | _ :: _, hwell => by
      rw [initializersAll, List.forall_mem_append]
      exact ⟨isInitializer_of_mem hwell.1, isInitializer_of_mem_all hwell.2.2.2⟩

end

end Node

namespace Output

/-! ### Plain runs -/

theorem dotsAll_of_isTrivia {ps : List Piece} (h : ∀ p ∈ ps, p.kind.isTrivia = true)
    (dotted : Bool) :
    dotsAll dotted ps = dotted := by
  induction ps with
  | nil => rfl
  | cons p ps ih =>
      rw [List.forall_mem_cons] at h
      rw [dotsAll, List.foldl_cons, dots, if_pos h.1]
      exact ih h.2

theorem free_of_isTrivia {ps rest : List Piece} {dotted : Bool}
    (h : ∀ p ∈ ps, p.kind.isTrivia = true) : Free TriesBlock dotted ps rest := by
  exact free_of_kinds fun p hp => Kind.ne_kwLet_of_isTrivia (h p hp)

theorem free_trimStart {ts : List Token} {rest : List Piece}
    (h : Free TriesBlock false (copied ts) rest) :
    Free TriesBlock false (copied (trimStart ts)) rest := by
  obtain ⟨blanks, hsplit, hblanks⟩ := exists_trimStart ts
  rw [hsplit, copied_append, free_append,
    dotsAll_of_isTrivia (isTrivia_of_blanks hblanks)] at h
  exact h.2

theorem free_trimEnd {ts : List Token} (h : Free TriesBlock false (copied ts) []) :
    Free TriesBlock false (copied (trimEnd ts)) [] := by
  obtain ⟨blanks, hsplit, hblanks⟩ := exists_trimEnd ts
  rw [hsplit, copied_append, free_append] at h
  exact h.1.move [] rfl

theorem parenNext_append_of_isTrivia {ps rest : List Piece}
    (h : ∀ p ∈ ps, p.kind.isTrivia = true) : parenNext (ps ++ rest) = parenNext rest := by
  rw [parenNext, significant?_append h, parenNext]

/-- No attempt at a header comes into a plain run by writing it. -/
theorem free_plainPieces (trim first last : Bool) {ts : List Token} {rest : List Piece}
    (h : Free TriesBlock false (copied ts) []) (hrest : parenNext rest = false)
    (dotted : Bool) :
    Free TriesBlock dotted (plainPieces trim first last ts) rest := by
  have hstart : Free TriesBlock false (copied (if trim && first then trimStart ts else ts))
      [] := by
    split_ifs
    · exact free_trimStart h
    · exact h
  unfold plainPieces
  dsimp only
  generalize (if trim && first then trimStart ts else ts) = us at hstart ⊢
  split_ifs
  · obtain ⟨feed, hfeed, htrivia⟩ := closedPieces_cases (trimEnd us)
    rw [hfeed, free_append]
    refine ⟨((free_trimEnd hstart).move _ ?_).weaken dotted, free_of_isTrivia htrivia⟩
    rw [parenNext_append_of_isTrivia htrivia, hrest]
  · exact (hstart.move _ hrest).weaken dotted

/-! ### Initializers -/

theorem balanced_of_append {ps qs : List Piece} (h : Balanced (ps ++ qs))
    (hqs : ∀ p ∈ qs, p.kind.isTrivia = true) : Balanced ps where
  total := by
    have htotal := h.total
    rwa [depth_append, depth_of_isTrivia hqs, Int.add_zero] at htotal
  before := by
    rintro us vs rfl
    exact h.before (List.append_assoc us vs qs)

theorem ends_append {ps rest : List Piece} (h : ∀ p ∈ ps, p.kind.isTrivia = true) :
    Ends (ps ++ rest) ↔ Ends rest := by
  rw [Ends, significant?_append h, Ends]

theorem ends_nil : Ends [] := by
  rintro p ⟨⟩

theorem ends_mark {text : String} (h : text ∈ [",", ";"]) (rest : List Piece) :
    Ends (mark text :: rest) := by
  rw [Ends, significant?_cons rfl]
  rintro p ⟨⟩
  refine ⟨rfl, ?_⟩
  revert h text
  decide

/-- Which headers start in balanced pieces does not depend on what follows them. -/
theorem free_balanced_iff {ps rest : List Piece} {dotted : Bool} (h : Balanced ps)
    (hrest : Ends rest) :
    Free StartsBlock dotted ps rest ↔ Free StartsBlock dotted ps [] := by
  -- a header has a bracket open up to its end, and no suffix of these pieces leaves one open
  have hsuffix : ∀ qs rs, ps = qs ++ rs → depth rs ≤ 0 := by
    intro qs rs hsplit
    have htotal := h.total
    have hbefore := h.before hsplit
    rw [hsplit, depth_append] at htotal
    omega
  clear h
  induction ps generalizing dotted with
  | nil => rfl
  | cons p ps ih =>
      have hhead : StartsBlock (p :: (ps ++ rest)) ↔ StartsBlock (p :: ps) :=
        startsBlock_append_iff (hsuffix [] _ rfl) hrest
      have htail : ∀ qs rs, ps = qs ++ rs → depth rs ≤ 0 := by
        rintro qs rs rfl
        exact hsuffix (p :: qs) rs rfl
      rw [Free, Free, hhead, List.append_nil]
      exact and_congr_right fun _ => ih htail

/-- A header starts in a written initializer exactly if one starts in the initializer on its
own. -/
theorem free_initializer_iff {init : List Token} {rest : List Piece}
    (h : Header.IsInitializer init) (hrest : Ends rest) :
    Free StartsBlock false (closedPieces (trimEnd init)) rest ↔
      Free StartsBlock false (copied init) [] := by
  obtain ⟨blanks, hsplit, hblanks⟩ := exists_trimEnd init
  obtain ⟨feed, hfeed, htrivia⟩ := closedPieces_cases (trimEnd init)
  have hbalanced : Balanced (copied (trimEnd init)) := by
    have hinit := h.matched.balanced
    rw [hsplit, List.map_append] at hinit
    exact balanced_of_append hinit (isTrivia_of_blanks hblanks)
  have hblanks' := isTrivia_of_blanks hblanks
  conv_rhs => rw [hsplit, copied_append]
  rw [hfeed, free_append, free_append,
    and_iff_left ((free_of_isTrivia htrivia).imp StartsBlock.tries),
    and_iff_left ((free_of_isTrivia hblanks').imp StartsBlock.tries),
    free_balanced_iff hbalanced ((ends_append htrivia).2 hrest),
    free_balanced_iff hbalanced ((ends_append hblanks').2 ends_nil)]

/-! ### Declarations -/

theorem trimEnd_ne_nil {ts : List Token} (h : ∃ t ∈ ts, t.isBlank = false) :
    trimEnd ts ≠ [] := by
  obtain ⟨t, ht, hblank⟩ := h
  intro hnil
  rw [trimEnd, List.reverse_eq_nil_iff, List.dropWhile_eq_nil_iff] at hnil
  have hall := hnil t (List.mem_reverse.2 ht)
  rw [hblank] at hall
  cases hall

theorem trimEnd_append {ts us : List Token} (h : ∃ u ∈ us, u.isBlank = false) :
    trimEnd (ts ++ us) = ts ++ trimEnd us := by
  have hne := trimEnd_ne_nil h
  rw [trimEnd, ne_eq, List.reverse_eq_nil_iff] at hne
  rw [trimEnd, trimEnd, List.reverse_append, List.dropWhile_append,
    if_neg (by simpa using hne), List.reverse_append, List.reverse_reverse]

theorem closedPieces_append {ts us : List Token} (h : us ≠ []) :
    closedPieces (ts ++ us) = copied ts ++ closedPieces us := by
  rw [closedPieces, closedPieces, copied_append, List.append_assoc, List.getLast?_append,
    List.getLast?_eq_some_getLast h, Option.some_or]

/-- What is written for a declaration: its name, and then its initializer if there is one. -/
theorem trimmedPieces_declaration {used : List Token} {d : Declaration}
    (h : Header.IsDeclaration used d) :
    (d.initializer = none ∧ trimmedPieces d.tokens = [d.name.toPiece]) ∨
      ∃ init gap equals, d.initializer = some init ∧ Header.IsInitializer init ∧
        Header.AllTrivia gap ∧ Header.isEquals equals = true ∧
        trimmedPieces d.tokens =
          d.name.toPiece :: (copied gap ++ equals.toPiece :: closedPieces (trimEnd init)) := by
  cases h with
  | @bare _ _ name _ hname _ =>
      left
      have hblank : name.isBlank = false :=
        isBlank_of_isTrivia (isTrivia_of_kind_identifier hname)
      simp [trimmedPieces, trimStart, trimEnd, hblank, closedPieces, copied, hname]
  | @valued _ gap init name equals _ hname hgap hequals hinit =>
      right
      refine ⟨init, gap, equals, rfl, hinit, hgap, hequals, ?_⟩
      have hblank : name.isBlank = false :=
        isBlank_of_isTrivia (isTrivia_of_kind_identifier hname)
      obtain ⟨t, ht, htrivia⟩ := hinit.significant
      have hsome : ∃ t ∈ init, t.isBlank = false := ⟨t, ht, isBlank_of_isTrivia htrivia⟩
      have hstart : trimStart (name :: gap ++ equals :: init) =
          (name :: gap ++ [equals]) ++ init := by
        simp [trimStart, hblank]
      rw [trimmedPieces, hstart, trimEnd_append hsome,
        closedPieces_append (trimEnd_ne_nil hsome)]
      simp [copied]

theorem free_of_kind {p : Piece} {ps rest : List Piece} {dotted : Bool} (h : p.kind ≠ .kwLet) :
    Free StartsBlock dotted (p :: ps) rest ↔ Free StartsBlock (p.dots dotted) ps rest :=
  and_iff_right fun _ hstarts => h hstarts.tries.1

theorem free_declaration_iff {used : List Token} {d : Declaration}
    (hd : Header.IsDeclaration used d) {rest : List Piece} (hrest : Ends rest)
    (dotted : Bool) :
    Free StartsBlock dotted (trimmedPieces d.tokens) rest ↔
      ∀ init ∈ d.initializer, Free StartsBlock false (copied init) [] := by
  have hname : d.name.toPiece.kind ≠ .kwLet := by
    cases hd <;> simp_all
  rcases trimmedPieces_declaration hd with
    ⟨hnone, hpieces⟩ | ⟨init, gap, equals, hsome, hinit, hgap, hequals, hpieces⟩
  · rw [hpieces, hnone, free_of_kind hname]
    simp [Free]
  · obtain ⟨hkind, hlexeme⟩ := isPunct_iff.1 hequals
    have hgap' : ∀ p ∈ copied gap, p.kind.isTrivia = true := by
      rw [copied, List.forall_mem_map]
      exact hgap
    have hdots : ∀ dotted, equals.toPiece.dots dotted = false := by
      intro dotted
      rw [dots, toPiece_kind, hkind, toPiece_lexeme, hlexeme]
      rfl
    rw [hpieces, hsome, free_of_kind hname, free_append,
      and_iff_right ((free_of_isTrivia hgap').imp StartsBlock.tries),
      free_of_kind (by simp [hkind]), hdots, free_initializer_iff hinit hrest]
    simp

theorem intercalate_cons {ds : List Declaration} (hne : ds ≠ []) (d : Declaration) :
    [mark ",", gap].intercalate ((d :: ds).map fun d => trimmedPieces d.tokens) =
      trimmedPieces d.tokens ++ mark "," :: gap ::
        [mark ",", gap].intercalate (ds.map fun d => trimmedPieces d.tokens) := by
  obtain ⟨d', ds, rfl⟩ := List.exists_cons_of_ne_nil hne
  rw [List.map_cons, List.map_cons, List.intercalate_cons_cons, List.append_assoc]
  rfl

theorem free_nativeList_iff {ds : List Declaration}
    (hds : ∀ d ∈ ds, ∃ used, Header.IsDeclaration used d) (hne : ds ≠ []) (rest : List Piece)
    (dotted : Bool) :
    Free StartsBlock dotted
        ([mark ",", gap].intercalate (ds.map fun d => trimmedPieces d.tokens))
          (mark ";" :: rest) ↔
      ∀ init ∈ ds.filterMap Declaration.initializer,
        Free StartsBlock false (copied init) [] := by
  induction ds generalizing dotted with
  | nil => exact absurd rfl hne
  | cons d ds ih =>
      rw [List.forall_mem_cons] at hds
      obtain ⟨⟨used, hd⟩, hds⟩ := hds
      have hall : (∀ init ∈ (d :: ds).filterMap Declaration.initializer,
          Free StartsBlock false (copied init) []) ↔
          (∀ init ∈ d.initializer, Free StartsBlock false (copied init) []) ∧
            ∀ init ∈ ds.filterMap Declaration.initializer,
              Free StartsBlock false (copied init) [] := by
        cases hinit : d.initializer <;> simp [hinit]
      rw [hall]
      by_cases hnil : ds = []
      · subst hnil
        rw [List.map_singleton, List.intercalate_singleton,
          free_declaration_iff hd (@ends_mark ";" (by decide) rest)]
        simp
      · rw [intercalate_cons hnil, free_append, List.cons_append,
          free_declaration_iff hd (@ends_mark "," (by decide) _), free_of_kind (by decide),
          free_of_kind (by decide), ih hds hnil]

/-- A name follows the `let` of a native block. -/
theorem parenNext_nativeList {ds : List Declaration}
    (hds : ∀ d ∈ ds, ∃ used, Header.IsDeclaration used d) (hne : ds ≠ []) (rest : List Piece) :
    parenNext ([mark ",", gap].intercalate (ds.map fun d => trimmedPieces d.tokens) ++ rest) =
      false := by
  obtain ⟨d, ds, rfl⟩ := List.exists_cons_of_ne_nil hne
  obtain ⟨used, hd⟩ := hds d List.mem_cons_self
  have hname := hd.kind_name
  have hfirst : ∃ more, trimmedPieces d.tokens = d.name.toPiece :: more := by
    rcases trimmedPieces_declaration hd with ⟨-, hpieces⟩ | ⟨_, _, _, -, -, -, -, hpieces⟩
    · exact ⟨[], hpieces⟩
    · exact ⟨_, hpieces⟩
  have hlist : ∃ more, [mark ",", gap].intercalate
      ((d :: ds).map fun d => trimmedPieces d.tokens) ++ rest = d.name.toPiece :: more := by
    obtain ⟨more, hmore⟩ := hfirst
    by_cases hnil : ds = []
    · subst hnil
      rw [List.map_singleton, List.intercalate_singleton, hmore]
      exact ⟨_, rfl⟩
    · rw [intercalate_cons hnil, hmore]
      exact ⟨_, rfl⟩
  obtain ⟨more, hmore⟩ := hlist
  have htrivia : d.name.toPiece.kind.isTrivia = false := isTrivia_of_kind_identifier hname
  rw [hmore, parenNext, significant?_cons htrivia]
  simp [hname]

theorem free_nativePieces_iff {ds : List Declaration}
    (hds : ∀ d ∈ ds, ∃ used, Header.IsDeclaration used d) (hne : ds ≠ []) (rest : List Piece)
    (dotted : Bool) :
    Free StartsBlock dotted (nativePieces ds) rest ↔
      ∀ init ∈ ds.filterMap Declaration.initializer,
        Free StartsBlock false (copied init) [] := by
  have hlet : Free StartsBlock dotted [mark "\x7b", gap, letWord, gap]
      ([mark ",", gap].intercalate (ds.map fun d => trimmedPieces d.tokens) ++ mark ";" ::
        rest) := by
    rw [free_of_kind (by decide), free_of_kind (by decide)]
    -- the `let` that is written here has a name after it
    refine ⟨fun _ hstarts => ?_, (free_of_kind (by decide)).2 trivial⟩
    have hparen := hstarts.tries.2
    rw [parenNext_append_of_isTrivia (by decide), parenNext_nativeList hds hne] at hparen
    cases hparen
  rw [nativePieces, List.append_assoc, free_append, List.append_assoc, List.singleton_append,
    and_iff_right hlet, free_append, List.singleton_append, free_nativeList_iff hds hne,
    free_of_kind (by decide)]
  exact and_iff_left trivial

/-! ### The tree -/

theorem parenNext_mark {text : String} (h : text ∈ ["\x7b", "\x7d"]) (rest : List Piece) :
    parenNext (mark text :: rest) = false := by
  rw [parenNext, significant?_cons rfl]
  revert h text
  decide

theorem openingPieces_native {style : Style} (hstyle : style.es3 = false) {header : Header}
    (h : header.declarations ≠ []) :
    openingPieces style header = nativePieces header.declarations := by
  simp [openingPieces, h, hstyle]

/-- No parenthesis comes to stand after a plain run. -/
theorem parenNext_after_plain {style : Style} (hstyle : style.es3 = false) {trim : Bool}
    {ts : List Token} {nodes : List Node} {rest : List Piece}
    (hwell : Node.WellFormedAll (.plain ts :: nodes)) (hrest : parenNext rest = false) :
    parenNext (writtenFrom style trim false nodes ++ rest) = false := by
  obtain ⟨-, -, hapart, hnodes⟩ := hwell
  cases nodes with
  | nil => exact hrest
  | cons node nodes =>
      cases node with
      | plain us => exact absurd ⟨rfl, rfl⟩ (hapart _ rfl)
      | letBlock header body closing span =>
          rw [writtenFrom, writtenNode, openingPieces_native hstyle hnodes.1.1.ne_nil]
          exact @parenNext_mark "\x7b" (by decide) _

mutual

theorem free_writtenNode_iff {style : Style} (hstyle : style.es3 = false) :
    ∀ (node : Node) {trim first last : Bool}, node.WellFormed → node.isPlain = false →
    Node.Settled [node] → ∀ (rest : List Piece) (dotted : Bool),
    (Free StartsBlock dotted (writtenNode style trim first last node) rest ↔
      ∀ init ∈ node.initializers, Free StartsBlock false (copied init) [])
  | .plain _, _, _, _, _, hplain, _ => by cases hplain
  | .letBlock header body closing span, _, _, _, hwell, _, hsettled => by
      intro rest dotted
      obtain ⟨hheader, -, hbody⟩ := hwell
      have hclosing : closingPieces style header closing = [mark "\x7d"] := by
        simp [closingPieces, hheader.ne_nil, hstyle]
      have hbrace : parenNext ([mark "\x7d"] ++ rest) = false :=
        @parenNext_mark "\x7d" (by decide) rest
      rw [writtenNode, hclosing, openingPieces_native hstyle hheader.ne_nil, free_append,
        free_append, free_of_kind (by decide),
        free_nativePieces_iff hheader.each hheader.ne_nil,
        free_writtenFrom_iff hstyle body hbody (Node.settled_letBlock.1 hsettled) hbrace,
        Node.initializers, List.forall_mem_append]
      exact and_iff_left trivial

theorem free_writtenFrom_iff {style : Style} (hstyle : style.es3 = false) :
    ∀ (nodes : List Node) {trim first : Bool} {rest : List Piece} {dotted : Bool},
      Node.WellFormedAll nodes →
    Node.Settled nodes → parenNext rest = false →
    (Free StartsBlock dotted (writtenFrom style trim first nodes) rest ↔
      ∀ init ∈ Node.initializersAll nodes, Free StartsBlock false (copied init) [])
  | [], _, _, _, _, _, _, _ => by simp [writtenFrom, Free, Node.initializersAll]
  | .plain ts :: nodes, trim, first, rest, dotted, hwell, hsettled, hrest => by
      have hafter : parenNext (writtenFrom style trim false nodes ++ rest) = false :=
        parenNext_after_plain hstyle hwell hrest
      rw [Node.settled_cons] at hsettled
      -- not even attempts: what follows the run is written anew, and could complete one
      have hrun : Free TriesBlock false (copied ts) [] :=
        hsettled.1 ts (by simp [Node.plainRunsAll, Node.plainRuns])
      rw [writtenFrom, writtenNode, free_append,
        and_iff_right ((free_plainPieces trim first nodes.isEmpty hrun hafter dotted).imp
          StartsBlock.tries),
        free_writtenFrom_iff hstyle nodes hwell.2.2.2 hsettled.2 hrest]
      rfl
  | .letBlock header body closing span :: nodes, _, _, rest, _, hwell, hsettled, hrest => by
      obtain ⟨hblock, -, -, hnodes⟩ := hwell
      rw [Node.settled_cons] at hsettled
      rw [writtenFrom, free_append, free_writtenNode_iff hstyle _ hblock rfl hsettled.1,
        free_writtenFrom_iff hstyle nodes hnodes hsettled.2 hrest, Node.initializersAll,
        List.forall_mem_append]

end

/-! ### A second run -/

/-- A tree is written as it was read exactly if it has no blocks. -/
theorem spell_written_eq_iff (style : Style) {nodes : List Node}
    (hwell : Node.WellFormedAll nodes)
    (hlets : ∀ p ∈ copied (Node.tokensAll nodes), p.kind = .kwLet → p.lexeme = utf8 "let") :
    spell (written style nodes) = spell (copied (Node.tokensAll nodes)) ↔
      Node.countAll nodes = 0 := by
  induction nodes with
  | nil => exact iff_of_true rfl rfl
  | cons node nodes ih =>
      cases node with
      | plain ts =>
          rw [Node.tokensAll, Node.tokens, copied_append, List.forall_mem_append] at hlets
          rw [written_plain, Node.tokensAll, Node.tokens, copied_append, spell_append,
            spell_append, List.append_cancel_left_eq, ih hwell.2.2.2 hlets.2, Node.countAll,
            Node.count, Nat.zero_add]
      | letBlock header body closing span =>
          obtain ⟨more, hsource⟩ := spell_block hwell.1.1 hlets
          obtain ⟨b, more', houtput, hb⟩ :=
            spell_writtenFrom_block style false true hwell.1.1.ne_nil
          rw [written, houtput, hsource, Node.countAll, Node.count]
          -- the source goes on with `l` here, and the output does not
          refine iff_of_false ?_ (by omega)
          rintro ⟨⟩
          exact absurd hb (by decide)

/-- A script is compiled to itself exactly if it has no blocks. -/
theorem compile_eq_self_iff (style : Style) {text : Text}
    (h : (Token.lex (Source.ofText text)).diagnostics = []) :
    compile style text = text ↔
      Node.countAll (Node.parse (Token.lex (Source.ofText text)).tokens).nodes = 0 := by
  have hlets := (script_parse text).lexeme_of_kwLet
  rw [← spell_written_eq_iff style (Node.parse_spec _).1 hlets, copied_tokensAll_parse h,
    spell_stream, ← compile_eq_spell]

/-- An initializer holds no block exactly if none starts in it. -/
theorem countAll_initializer_iff {init : List Token} (h : Header.IsInitializer init) :
    Node.countAll (Node.parse init).nodes = 0 ↔ Free StartsBlock false (copied init) [] := by
  apply Node.countAll_parse_eq_zero_iff
  rw [List.takeWhile_eq_self_iff]
  intro t ht
  rw [h.noEof t ht]
  rfl

end Output

/-- The native output of a script in order is compiled to itself, in any style, exactly if no
initializer in it holds a let-block. -/
theorem compile_native_eq_self_iff (annotate : Bool) (text : Text) (style : Style)
    (h : (Compilation.of { es3 := false, annotate } (Source.ofText text)).diagnostics = []) :
    compile style (compile { es3 := false, annotate } text) =
      compile { es3 := false, annotate } text ↔
      ∀ init ∈
        Node.initializersAll
          (Compilation.of { es3 := false, annotate } (Source.ofText text)).nodes,
        Node.countAll (Node.parse init).nodes = 0 := by
  rw [Compilation.of_eq] at h ⊢
  obtain ⟨hlex, hparse⟩ := List.append_eq_nil_iff.1 h
  obtain ⟨hscript, hstream⟩ := Output.stream_compile { es3 := false, annotate } hlex
  obtain ⟨ts, -, hbefore, hpieces⟩ := Token.exists_lex hscript
  have hwell := (Node.parse_spec (Token.lex (Source.ofText text)).tokens).1
  rw [Output.compile_eq_self_iff style (Token.diagnostics_lex_eq_nil_iff.2 hscript),
    Node.countAll_parse_eq_zero_iff hbefore, hpieces, hstream, Output.written,
    Output.free_writtenFrom_iff rfl _ hwell (Node.settled_parse hparse) rfl]
  refine forall₂_congr fun init hinit => ?_
  exact (Output.countAll_initializer_iff (Node.isInitializer_of_mem_all hwell init hinit)).symm

theorem compile_native_eq_self_iff_nested :
    let text := utf8 "a(); let (x) \x7b let (y = [1, 2]) \x7b g(x, y) \x7d \x7d b();"
    (Compilation.of { es3 := false, annotate := true } (Source.ofText text)).diagnostics = [] ∧
      compile { es3 := true, annotate := false }
        (compile { es3 := false, annotate := true } text) =
        compile { es3 := false, annotate := true } text := by
  intro text
  have h :
      (Compilation.of { es3 := false, annotate := true } (Source.ofText text)).diagnostics =
      [] := by
    decide +kernel
  refine ⟨h, (compile_native_eq_self_iff true text _ h).2 ?_⟩
  decide +kernel

/-- A let-block in an initializer is still one in the output, and the second run writes it
anew. -/
theorem compile_native_rewrites_initializer :
    let text := utf8 "let (f = function() \x7b let (y) \x7b y \x7d \x7d) \x7b f() \x7d"
    (Compilation.of { es3 := false, annotate := true } (Source.ofText text)).diagnostics = [] ∧
      compile { es3 := true, annotate := false }
        (compile { es3 := false, annotate := true } text) ≠
        compile { es3 := false, annotate := true } text := by
  intro text
  have hfirst : compile { es3 := false, annotate := true } text =
      utf8 "\x7b let f = function() \x7b let (y) \x7b y \x7d \x7d;f()\x7d" := by
    decide +kernel
  have hsecond : compile { es3 := true, annotate := false }
      (utf8 "\x7b let f = function() \x7b let (y) \x7b y \x7d \x7d;f()\x7d") =
      utf8 "\x7b let f = function() \x7b " ++
        utf8 "try\x7bthrow undefined\x7dcatch(y)\x7by\x7d \x7d;f()\x7d" := by
    decide +kernel
  rw [hfirst, hsecond]
  exact ⟨by decide +kernel, by decide⟩

end LetBlocks
