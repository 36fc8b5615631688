import LetBlocks.Proofs.Header.Recognition
import LetBlocks.Proofs.Node.Roles
import LetBlocks.Proofs.Node.Sequences
import LetBlocks.Proofs.Token.Slashes

/-!
A `let` with a parenthesis behind it and no dot before it is meant to start a block. Wherever
such a `let` is left in a plain run, the parser has said why; wherever a block is left open,
the parser has said so, after everything else and from the innermost block outwards. So if it
has said nothing, every such `let` starts a block or stands in an initializer, and every block
is closed.
-/

namespace LetBlocks

open Token

namespace Header

/-- Is the token at an index a `let` with a parenthesis next and no dot before it, trivia
apart? -/
def isAttempt (tokens : List Token) (i : Nat) : Bool :=
  tokens[i]?.any (·.kind == .kwLet) && (next? (tokens.drop (i + 1))).any isOpenParen &&
    !(nearest? (tokens.take i)).any fun t => t.isPunct (utf8 ".") || t.isPunct (utf8 "?.")

def Covers (init ts : List Token) (k : Nat) : Prop :=
  ∃ before after, ts = before ++ init ++ after ∧ before.length ≤ k ∧
    k < before.length + init.length

/-- The index of a header lies in one of its initializers. -/
def InInitializer (header : Header) (index : Nat) : Prop :=
  ∃ d ∈ header.declarations, ∃ init ∈ d.initializer, Covers init header.tokens index

theorem next?_append_hidden (ts : List Token) {hidden : List Token} (h : visible hidden = []) :
    (next? (ts ++ hidden)).any isOpenParen = (next? ts).any isOpenParen := by
  induction ts with
  | nil =>
      cases hidden with
      | nil => rfl
      | cons t rest =>
          have heof : t.kind = .eof := by simpa [visible, isEof] using h
          have htrivia : t.isTrivia = false := by
            rw [isTrivia, heof]
            rfl
          have hparen : isOpenParen t = false := by simp [isOpenParen, isPunct, heof]
          simp [next?, htrivia, hparen]
  | cons t ts ih =>
      simp only [next?, List.cons_append, List.dropWhile_cons] at ih ⊢
      split
      · exact ih
      · rfl

/-- What is behind the end of input makes no difference before it. -/
theorem isAttempt_visible {tokens : List Token} {i : Nat} (hi : i < (visible tokens).length) :
    isAttempt (visible tokens) i = isAttempt tokens i := by
  obtain ⟨hidden, htokens, hnil⟩ := exists_hidden tokens
  generalize visible tokens = seen at hi htokens
  subst htokens
  rw [isAttempt, isAttempt, List.getElem?_append_left hi, List.take_append_of_le_length hi.le,
    List.drop_append_of_le_length (Nat.succ_le_of_lt hi), next?_append_hidden _ hnil]

/-! ### The `let`s of a header -/

theorem Covers.append_right {init ts : List Token} {k : Nat} (h : Covers init ts k)
    (us : List Token) : Covers init (ts ++ us) k := by
  obtain ⟨before, after, rfl, hk⟩ := h
  exact ⟨before, after ++ us, by simp, hk⟩

theorem Covers.append_left {init ts : List Token} {k : Nat} (h : Covers init ts k)
    (us : List Token) : Covers init (us ++ ts) (us.length + k) := by
  obtain ⟨before, after, rfl, hle, hlt⟩ := h
  refine ⟨us ++ before, after, by simp, ?_, ?_⟩
  · rw [List.length_append]
    omega
  · rw [List.length_append]
    omega

def LetsWithin (ts : List Token) (ds : List Declaration) : Prop :=
  ∀ k t, ts[k]? = some t → t.kind = .kwLet → ∃ d ∈ ds, ∃ init ∈ d.initializer, Covers init ts k

theorem LetsWithin.append {ts us : List Token} {ds ds' : List Declaration}
    (hts : LetsWithin ts ds) (hus : LetsWithin us ds') :
    LetsWithin (ts ++ us) (ds ++ ds') := by
  intro k t hk hlet
  by_cases hlt : k < ts.length
  · rw [List.getElem?_append_left hlt] at hk
    obtain ⟨d, hd, init, hinit, hcovers⟩ := hts k t hk hlet
    exact ⟨d, List.mem_append_left _ hd, init, hinit, hcovers.append_right us⟩
  · have hle : ts.length ≤ k := Nat.le_of_not_lt hlt
    rw [List.getElem?_append_right hle] at hk
    obtain ⟨d, hd, init, hinit, hcovers⟩ := hus _ t hk hlet
    have hshift := hcovers.append_left ts
    rw [Nat.add_sub_cancel' hle] at hshift
    exact ⟨d, List.mem_append_right _ hd, init, hinit, hshift⟩

theorem letsWithin_of_kinds {ts : List Token} (h : ∀ t ∈ ts, t.kind ≠ .kwLet) :
    LetsWithin ts [] :=
  fun _ t hk hlet => absurd hlet (h t (List.mem_of_getElem? hk))

theorem letsWithin_initializer {d : Declaration} {init : List Token}
    (h : d.initializer = some init) : LetsWithin init [d] := by
  intro k t hk _
  obtain ⟨hlt, -⟩ := List.getElem?_eq_some_iff.1 hk
  exact ⟨d, List.mem_singleton_self d, init, h, [], [], by simp,
    Nat.zero_le k, by simpa using hlt⟩

theorem AllTrivia.letsWithin {ts : List Token} (h : AllTrivia ts) : LetsWithin ts [] :=
  letsWithin_of_kinds fun t ht => Kind.ne_kwLet_of_isTrivia (h t ht)

theorem letsWithin_singleton {t : Token} (h : t.kind ≠ .kwLet) : LetsWithin [t] [] :=
  letsWithin_of_kinds (List.forall_mem_singleton.2 h)

theorem letsWithin_punct {t : Token} {text : Text} (h : t.isPunct text = true) :
    LetsWithin [t] [] :=
  letsWithin_singleton (by simp [(isPunct_iff.1 h).1])

theorem IsDeclaration.letsWithin {ts : List Token} {d : Declaration} (h : IsDeclaration ts d) :
    LetsWithin ts [d] := by
  cases h with
  | @bare before after name hbefore hname hafter =>
      have hname' : LetsWithin [name] [] := letsWithin_singleton (by simp [hname])
      intro k t hk hlet
      obtain ⟨d, hd, -⟩ :=
        (hbefore.letsWithin.append (hname'.append hafter.letsWithin)) k t hk hlet
      cases hd
  | @valued before gap init name equals hbefore hname hgap hequals hinit =>
      have hname' : LetsWithin [name] [] := letsWithin_singleton (by simp [hname])
      have hinit' : LetsWithin init [⟨name, some init, name :: gap ++ equals :: init⟩] :=
        letsWithin_initializer rfl
      have hall := (hbefore.letsWithin.append (hname'.append hgap.letsWithin)).append
        ((letsWithin_punct hequals).append hinit')
      simpa using hall

theorem IsList.letsWithin {ts : List Token} {ds : List Declaration} (h : IsList ts ds) :
    LetsWithin ts ds := by
  induction h with
  | last hd hclose => simpa using hd.letsWithin.append (letsWithin_punct hclose)
  | trailing hd hcomma hgap hclose =>
      have hend :=
        (letsWithin_punct hcomma).append (hgap.letsWithin.append (letsWithin_punct hclose))
      simpa using hd.letsWithin.append hend
  | cons hd hcomma _ ih =>
      simpa using hd.letsWithin.append ((letsWithin_punct hcomma).append ih)

/-- A `let` in a header is its first token or stands in an initializer. -/
theorem IsHeader.index_of_let {header : Header}
    (h : IsHeader header.tokens header.declarations) {k : Nat} {t : Token}
    (hk : header.tokens[k]? = some t) (hlet : t.kind = .kwLet) :
    k = 0 ∨ header.InInitializer k := by
  obtain ⟨declarations, tokens⟩ := header
  unfold InInitializer
  simp only at h hk ⊢
  cases h with
  | @intro letToken paren brace gap list after _ _ hgap hparen hlist hafter hbrace =>
      cases k with
      | zero => exact .inl rfl
      | succ k =>
          have hrest :=
            (hgap.letsWithin.append ((letsWithin_punct hparen).append hlist.letsWithin)).append
              (hafter.letsWithin.append (letsWithin_punct hbrace))
          have htokens : letToken :: gap ++ paren :: list ++ after ++ [brace] =
              [letToken] ++ (gap ++ ([paren] ++ list) ++ (after ++ [brace])) := by
            simp
          rw [htokens] at hk ⊢
          rw [List.singleton_append, List.getElem?_cons_succ] at hk
          obtain ⟨d, hd, init, hinit, hcovers⟩ := hrest k t hk hlet
          have hshift := hcovers.append_left [letToken]
          rw [List.length_singleton, Nat.add_comm] at hshift
          exact .inr ⟨d, by simpa using hd, init, hinit, hshift⟩

end Header

namespace Node

open Piece

/-! ### Roles in a well-formed tree -/

def Role.Fits (nodes : List Node) (t : Token) : Role → Prop
  | .plain => True
  | .header h index =>
    (∃ body closing span, letBlock h body closing span ∈ withinAll nodes) ∧
      h.tokens[index]? = some t
  | .closing => t.closes? = some .curly

theorem Role.Fits.mono {nodes nodes' : List Node} (h : withinAll nodes ⊆ withinAll nodes')
    {t : Token} {role : Role} (hrole : role.Fits nodes t) : role.Fits nodes' t := by
  cases role with
  | plain => trivial
  | header header index =>
      obtain ⟨⟨body, closing, span, hmem⟩, ht⟩ := hrole
      exact ⟨⟨body, closing, span, h hmem⟩, ht⟩
  | closing => exact hrole

mutual

theorem fits_of_mem_roles :
    ∀ {node : Node}, node.WellFormed → ∀ x ∈ node.roles, x.2.Fits [node] x.1
  | plain ts, _ => by
      rintro x hx
      obtain ⟨t, -, rfl⟩ := List.mem_map.1 hx
      trivial
  | letBlock header body closing span, hwell => by
      have hself : letBlock header body closing span ∈
          withinAll [letBlock header body closing span] := by
        simp [withinAll, within]
      have hbody : withinAll body ⊆ withinAll [letBlock header body closing span] := by
        simp [withinAll, within]
      rw [roles, List.forall_mem_append, List.forall_mem_append]
      refine ⟨⟨fun x hx => ?_, fun x hx => (fits_of_mem_rolesAll hwell.2.2 x hx).mono hbody⟩,
        fun x hx => ?_⟩
      · obtain ⟨⟨t, index⟩, hmem, rfl⟩ := List.mem_map.1 hx
        exact ⟨⟨body, closing, span, hself⟩, List.mem_zipIdx_iff_getElem?.1 hmem⟩
      · obtain ⟨t, ht, rfl⟩ := List.mem_map.1 hx
        exact (hwell.2.1 t (Option.mem_toList.1 ht)).1

theorem fits_of_mem_rolesAll : ∀ {nodes : List Node}, WellFormedAll nodes →
    ∀ x ∈ rolesAll nodes, x.2.Fits nodes x.1
  | [], _ => by simp [rolesAll]
  | node :: nodes, hwell => by
      rw [rolesAll, List.forall_mem_append]
      refine ⟨fun x hx => (fits_of_mem_roles hwell.1 x hx).mono ?_,
        fun x hx => (fits_of_mem_rolesAll hwell.2.2.2 x hx).mono ?_⟩
      · simp [withinAll]
      · simp [withinAll]

end

/-! ### Counting attempts -/

/-- The indices of the tokens that stand in plain runs of a tree. -/
def plainIndices (nodes : List Node) : List Nat :=
  (List.range (rolesAll nodes).length).filter fun i => (rolesAll nodes)[i]?.any (·.2 = .plain)

def isTried : Header.Reading → Bool
  | .absent => false
  | .faulty _ => true
  | .found _ _ => true

theorem isTried_read (t : Token) (ts : List Token) :
    isTried (Header.read t ts) = (Header.next? ts).any Header.isOpenParen := by
  cases hnext : (Header.next? ts).any Header.isOpenParen with
  | false => rw [Header.read_eq_absent_iff.2 hnext, isTried]
  | true =>
      cases hread : Header.read t ts with
      | absent =>
          rw [Header.read_eq_absent_iff, hnext] at hread
          cases hread
      | faulty d => rfl
      | found header rest => rfl

theorem dotsAll_eq_nearest? (ts : List Token) :
    dotsAll false (ts.map toPiece) = (nearest? ts).any fun t => t.isPunct (utf8 ".") ||
      t.isPunct (utf8 "?.") := by
  induction ts using List.reverseRecOn with
  | nil => rfl
  | append_singleton ts t ih =>
      have hsnoc : dotsAll false ((ts ++ [t]).map toPiece) =
          t.toPiece.dots (dotsAll false (ts.map toPiece)) := by
        rw [List.map_append, dotsAll, List.foldl_append]
        rfl
      rw [hsnoc, dots, toPiece_kind, toPiece_lexeme]
      cases ht : t.kind.isTrivia with
      | true => simp [ih, nearest?, isTrivia, ht]
      | false => simp [nearest?, isTrivia, ht, isPunct, Bool.and_or_distrib_left]

theorem isAttempt_append (before after : List Token) (t : Token) :
    Header.isAttempt (before ++ t :: after) before.length =
      (t.kind == .kwLet && (Header.next? after).any Header.isOpenParen &&
        !dotsAll false (before.map toPiece)) := by
  rw [Header.isAttempt, dotsAll_eq_nearest?, List.take_left, ← List.drop_drop, List.drop_left,
    List.getElem?_append_right (Nat.le_refl _), Nat.sub_self]
  rfl

/-- The headers that have been tried at the `let`s of plain runs, counted by index. `before`
are the tokens before these, and `rest` are those behind. -/
theorem countP_readings (before : List Token) (roles : List (Token × Role))
    (rest : List Token) :
    (readings (dotsAll false (before.map toPiece)) roles rest).countP isTried =
      (List.range roles.length).countP fun i =>
        roles[i]?.any (·.2 = .plain) &&
          Header.isAttempt (before ++ roles.map Prod.fst ++ rest) (before.length + i) := by
  induction roles generalizing before with
  | nil => rfl
  | cons x more ih =>
      obtain ⟨t, role⟩ := x
      have hdots : t.toPiece.dots (dotsAll false (before.map toPiece)) =
          dotsAll false ((before ++ [t]).map toPiece) := by
        rw [List.map_append, dotsAll, dotsAll, List.foldl_append]
        rfl
      have hattempt := isAttempt_append before (more.map Prod.fst ++ rest) t
      rw [readings, List.countP_append, hdots, ih (before ++ [t]), List.length_cons,
        List.range_succ_eq_map, List.countP_cons, List.countP_map, Nat.add_comm]
      congr 1
      · apply List.countP_congr
        intro i _
        simp [Nat.add_assoc, Nat.add_comm 1]
      · simp only [List.map_cons, List.getElem?_cons_zero, Option.any_some, Nat.add_zero,
          List.append_assoc, List.cons_append, hattempt, ← isTried_read t]
        by_cases hrole : role = .plain <;> by_cases hkind : t.kind = .kwLet <;>
          cases dotsAll false (before.map toPiece) <;> simp [hrole, hkind]

/-- The tokens of the tree are those of the script. -/
theorem map_fst_rolesAll_parse (tokens : List Token) :
    (rolesAll (parse tokens).nodes).map Prod.fst = Header.visible tokens := by
  rw [map_fst_rolesAll, (parse_spec tokens).2, Header.visible]

/-- Every failed attempt has been reported, and nothing else has been reported with these
codes. -/
theorem countP_isFault_parse (tokens : List Token) :
    (parse tokens).diagnostics.countP isFault =
      (plainIndices (parse tokens).nodes).countP (Header.isAttempt tokens) := by
  obtain ⟨hfaults, hfound⟩ := readings_parse tokens
  have hfst := map_fst_rolesAll_parse tokens
  have htried : ∀ r ∈ readings false (rolesAll (parse tokens).nodes) [], isTried r =
      (fault? r).isSome := by
    intro r hr
    cases r with
    | absent => rfl
    | faulty d => rfl
    | found header rest => exact absurd hr (hfound header rest)
  calc (parse tokens).diagnostics.countP isFault
      = ((readings false (rolesAll (parse tokens).nodes) []).filterMap fault?).length := by
        rw [List.countP_eq_length_filter, hfaults]
    _ = (readings (dotsAll false (([] : List Token).map toPiece))
      (rolesAll (parse tokens).nodes) []).countP
          isTried := by
        rw [List.length_filterMap_eq_countP]
        exact (List.countP_congr fun r hr => by rw [htried r hr]).symm
    _ = (plainIndices (parse tokens).nodes).countP (Header.isAttempt tokens) := by
        rw [countP_readings, plainIndices, List.countP_filter]
        apply List.countP_congr
        intro i hi
        rw [List.mem_range, ← List.length_map Prod.fst, hfst] at hi
        rw [List.nil_append, List.append_nil, hfst, List.length_nil, Nat.zero_add,
          Header.isAttempt_visible hi, Bool.and_comm]

/-! ### Open blocks -/

/-- The blocks of a tree that lack their closing brace, each before those inside it. -/
def openBlocks (nodes : List Node) : List Node := (withinAll nodes).filter isOpen

def openReport? : Node → Option Diagnostic
  | plain _ => none
  | letBlock header _ _ _ =>
    header.tokens.head?.map fun t => (Problem.openBlock t.span.start.line).diagnostic t.span

theorem openBlocks_append (nodes nodes' : List Node) :
    openBlocks (nodes ++ nodes') = openBlocks nodes ++ openBlocks nodes' := by
  rw [openBlocks, withinAll_append, List.filter_append, openBlocks, openBlocks]

theorem openBlocks_cons (node : Node) (nodes : List Node) :
    openBlocks (node :: nodes) = openBlocks [node] ++ openBlocks nodes :=
      openBlocks_append [node] nodes

theorem openBlocks_open (header : Header) (body : List Node) (span : Span) :
    openBlocks [letBlock header body none span] =
      letBlock header body none span :: openBlocks body := by
  simp [openBlocks, withinAll, within, List.filter_cons, isOpen]

mutual

theorem WellFormed.openBlocks_eq_nil :
    ∀ {node : Node}, node.WellFormed → node.isOpen = false → openBlocks [node] = []
  | plain _, _, _ => rfl
  | letBlock header body (some t) span, hwell, _ => by
      have hbody := WellFormedAll.openBlocks_eq_nil hwell.2.2 (hwell.2.1 t rfl).2
      simpa [openBlocks, withinAll, within, isOpen] using hbody

theorem WellFormedAll.openBlocks_eq_nil :
    ∀ {nodes : List Node}, WellFormedAll nodes → (∀ n ∈ nodes, n.isOpen = false) →
    openBlocks nodes = []
  | [], _, _ => rfl
  | node :: nodes, hwell, hclosed => by
      rw [List.forall_mem_cons] at hclosed
      rw [openBlocks_cons, WellFormed.openBlocks_eq_nil hwell.1 hclosed.1,
        WellFormedAll.openBlocks_eq_nil hwell.2.2.2 hclosed.2, List.append_nil]

end

mutual

/-- Open blocks stand one in the other, and the first of them in the sequence itself. -/
theorem WellFormed.isChain_openBlocks : ∀ {node : Node}, node.WellFormed →
    (openBlocks [node]).IsChain (fun outer inner => inner ∈ outer.body) ∧
      ∀ n ∈ (openBlocks [node]).head?, n = node
  | plain _, _ => ⟨List.isChain_nil, by simp [openBlocks, withinAll, within, isOpen]⟩
  | letBlock header body none span, hwell => by
      obtain ⟨hchain, hhead⟩ := WellFormedAll.isChain_openBlocks hwell.2.2
      rw [openBlocks_open, List.isChain_cons]
      exact ⟨⟨hhead, hchain⟩, by simp⟩
  | letBlock header body (some t) span, hwell => by
      rw [hwell.openBlocks_eq_nil rfl]
      exact ⟨List.isChain_nil, by simp⟩

theorem WellFormedAll.isChain_openBlocks : ∀ {nodes : List Node}, WellFormedAll nodes →
    (openBlocks nodes).IsChain (fun outer inner => inner ∈ outer.body) ∧
      ∀ n ∈ (openBlocks nodes).head?, n ∈ nodes
  | [], _ => ⟨List.isChain_nil, by simp [openBlocks, withinAll]⟩
  | node :: nodes, hwell => by
      rw [openBlocks_cons]
      cases hopen : node.isOpen with
      | true =>
          obtain ⟨hchain, hhead⟩ := WellFormed.isChain_openBlocks hwell.1
          rw [hwell.2.1 hopen]
          exact ⟨by simpa [openBlocks, withinAll] using hchain, by
            simpa [openBlocks, withinAll] using hhead⟩
      | false =>
          obtain ⟨hchain, hhead⟩ := WellFormedAll.isChain_openBlocks hwell.2.2.2
          rw [hwell.1.openBlocks_eq_nil hopen, List.nil_append]
          exact ⟨hchain, fun n hn => List.mem_cons_of_mem _ (hhead n hn)⟩

end

namespace Progress

/-- While a script is read, no block is reported to be open, and the parser knows the `let`s of
those that are. -/
structure Ongoing (p : Progress) : Prop where
  lets : ∀ b ∈ p.around, b.header.tokens.head? = some b.letToken
  codes : ∀ d ∈ p.diagnostics, d.code ≠ utf8 "P005"

theorem Ongoing.take {p : Progress} (hp : p.Ongoing) (t : Token) : (p.take t).Ongoing := by
  refine ⟨fun b hb => hp.lets b (around_take_subset p t hb), ?_⟩
  rw [diagnostics_take, List.forall_mem_append]
  refine ⟨fun d hd => ?_, hp.codes⟩
  rw [mismatches_complaints p t d hd]
  decide

theorem Ongoing.openBlock {p : Progress} (hp : p.Ongoing) {t : Token} {header : Header}
    {rest rest' : List Token} (hsplit : t :: rest = header.tokens ++ rest')
    (hheader : Header.IsHeader header.tokens header.declarations) :
    (p.openBlock t header).Ongoing := by
  refine ⟨?_, hp.codes⟩
  rw [Progress.openBlock, List.forall_mem_cons]
  exact ⟨hheader.head?_eq hsplit, hp.lets⟩

theorem Ongoing.run {p : Progress} (hp : p.Ongoing) {ts : List Token}
    (heof : ∀ t ∈ ts, t.isEof = false) : (p.run ts).Ongoing := by
  refine run_induction (motive := fun p _ => p.Ongoing) ?_ ?_ heof hp
  · intro p t header rest rest' hsplit hheader hp
    exact hp.openBlock hsplit hheader
  · intro p t rest ds hds hfiled hp
    have hp' : Ongoing (p.noting ds) := by
      refine ⟨hp.lets, ?_⟩
      rw [diagnostics_noting hfiled]
      refine List.forall_mem_append.2 ⟨fun d hd hcode => ?_, hp.codes⟩
      have hfault := hds d hd
      rw [hcode] at hfault
      exact absurd hfault (by decide)
    exact hp'.take t

/-- While the open blocks are closed: those of the tree so far, from the innermost outwards,
and then those around it are to be reported as `reports` says. -/
structure Closing (reports : List (Option Diagnostic)) (p : Progress) : Prop where
  around : ∀ b ∈ p.around, b.Valid ∧ b.header.tokens.head? = some b.letToken
  reports : (openBlocks p.scope.toNodes).reverse.map openReport? ++
    p.around.map (fun b => some b.report) = reports

theorem Closing.abandon {reports : List (Option Diagnostic)} {p : Progress} {b : OpenBlock}
    {around : List OpenBlock} (h : p.Closing reports) (hp : p.around = b :: around)
    (stop : Location) : (abandon stop p b).Closing reports := by
  obtain ⟨hvalid, hreports⟩ := h
  rw [hp, List.forall_mem_cons] at hvalid
  obtain ⟨⟨⟨-, houter, hrun⟩, hlet⟩, hrest⟩ := hvalid
  have hclosed : openBlocks b.outer.nodes.reverse = [] :=
    houter.reverse.wellFormedAll.openBlocks_eq_nil fun n hn => (houter.reverse.each n hn).2
  have hreport : ∀ span, openReport? (letBlock b.header p.scope.toNodes none span) =
      some b.report := by
    intro span
    rw [openReport?, hlet, Option.map_some, OpenBlock.report]
  constructor
  · rwa [around_abandon hp]
  · rw [toNodes_abandon hp hrun, around_abandon hp, openBlocks_append, hclosed,
      List.nil_append, openBlocks_open, List.reverse_cons, List.map_append, List.map_singleton,
      hreport, ← hreports, hp]
    simp

theorem map_openReport?_finish {p : Progress} (hvalid : p.Valid) (hp : p.Ongoing)
    (stop : Location) :
    (p.around.map OpenBlock.report).map some =
      (openBlocks (p.finish stop).scope.toNodes).reverse.map openReport? := by
  have hclosed : openBlocks p.scope.toNodes = [] :=
    hvalid.scope.toNodes.wellFormedAll.openBlocks_eq_nil fun n hn =>
      (hvalid.scope.toNodes.each n hn).2
  have hstart : p.Closing ((p.around.map OpenBlock.report).map some) := by
    refine ⟨fun b hb => ⟨hvalid.around b hb, hp.lets b hb⟩, ?_⟩
    rw [hclosed]
    simp
  obtain ⟨hend, hnil⟩ :=
    finish_induction (fun q b around hq h => Closing.abandon h hq stop) p hstart
  rw [← hend.reports, hnil]
  simp

end Progress

/-- The parser reports that blocks are open after everything else, the innermost first. -/
theorem exists_openReports_parse (tokens : List Token) :
    ∃ others reports, (parse tokens).diagnostics = others ++ reports ∧
      (∀ d ∈ others, d.code ≠ utf8 "P005") ∧
      reports.map some = (openBlocks (parse tokens).nodes).reverse.map openReport? ∧
      ∀ d ∈ reports, d.code = utf8 "P005" := by
  have heof : ∀ t ∈ tokens.takeWhile (!·.isEof), t.isEof = false := isEof_of_mem_takeWhile
  have hstart : Progress.Ongoing {} := ⟨by simp, by simp [Progress.diagnostics]⟩
  have hrun := hstart.run heof
  have hvalid := (Progress.run_spec Progress.valid_start heof).1
  refine ⟨_, _, ?_, fun d hd => hrun.codes d (List.mem_reverse.1 hd),
    Progress.map_openReport?_finish hvalid hrun _, ?_⟩
  · rw [parse_eq, Progress.diagnostics_finish, List.reverse_append, List.reverse_reverse]
  · intro d hd
    obtain ⟨b, -, rfl⟩ := List.mem_map.1 hd
    rfl

/-! ### All reports -/

theorem kind_of_isAttempt {tokens : List Token} {i : Nat} {t : Token}
    (ht : tokens[i]? = some t) (h : Header.isAttempt tokens i = true) : t.kind = .kwLet := by
  rw [Header.isAttempt, ht, Bool.and_eq_true, Bool.and_eq_true] at h
  simpa using h.1.1

/-- A `let` that is not left in a plain run starts a block or stands in an initializer. -/
theorem WellFormedAll.role_of_let {nodes : List Node} (hwell : WellFormedAll nodes) {t : Token}
    {role : Role} (hmem : (t, role) ∈ rolesAll nodes) (hlet : t.kind = .kwLet)
    (hrole : role ≠ .plain) :
    ∃ header index, role = .header header index ∧
      (∃ body closing span, letBlock header body closing span ∈ withinAll nodes) ∧
      (index = 0 ∨ header.InInitializer index) := by
  have hfits := fits_of_mem_rolesAll hwell _ hmem
  cases role with
  | plain => exact absurd rfl hrole
  | header header index =>
      obtain ⟨⟨body, closing, span, hblock⟩, ht⟩ := hfits
      have hheader := (hwell.of_mem_within _ hblock).1
      exact ⟨header, index, rfl, ⟨body, closing, span, hblock⟩, hheader.index_of_let ht hlet⟩
  | closing =>
      have hpunct := (closes?_eq_some_iff.1 hfits).1
      rw [hlet] at hpunct
      cases hpunct

/-- The parser reports everything that it passes over. The tokens of its tree are those of the
script. Of the `let`s with a parenthesis next and no dot before it, as many are left in plain
runs as there are reports of the codes for headers. The reports on open blocks come last, one
for each, at its `let` and the innermost block first. So if there is no report at all, each of
these `let`s starts a block or stands in an initializer, and no block is open. -/
theorem parse_reports (tokens : List Token) :
    (rolesAll (parse tokens).nodes).map Prod.fst = Header.visible tokens ∧
    (parse tokens).diagnostics.countP isFault =
      (plainIndices (parse tokens).nodes).countP (Header.isAttempt tokens) ∧
    (parse tokens).diagnostics.countP (·.code = utf8 "P005") =
      (openBlocks (parse tokens).nodes).length ∧
    (openBlocks (parse tokens).nodes).IsChain (fun outer inner => inner ∈ outer.body) ∧
    (∃ others reports, (parse tokens).diagnostics = others ++ reports ∧
      (∀ d ∈ others, d.code ≠ utf8 "P005") ∧
      reports.map some = (openBlocks (parse tokens).nodes).reverse.map openReport?) ∧
    ((parse tokens).diagnostics = [] →
      (∀ i < (Header.visible tokens).length, Header.isAttempt tokens i = true →
        ∃ t header index,
          (rolesAll (parse tokens).nodes)[i]? = some (t, .header header index) ∧
          (∃ body closing span,
            letBlock header body closing span ∈ withinAll (parse tokens).nodes) ∧
          (index = 0 ∨ header.InInitializer index)) ∧
      ∀ node ∈ withinAll (parse tokens).nodes, node.isOpen = false) := by
  have hwell := (parse_spec tokens).1
  obtain ⟨others, reports, hsplit, hothers, hreports, hcodes⟩ :=
    exists_openReports_parse tokens
  have hfst := map_fst_rolesAll_parse tokens
  have hfaults := countP_isFault_parse tokens
  have hlength : reports.length = (openBlocks (parse tokens).nodes).length := by
    simpa using congrArg List.length hreports
  refine ⟨hfst, hfaults, ?_, hwell.isChain_openBlocks.1,
    ⟨others, reports, hsplit, hothers, hreports⟩, ?_⟩
  · have hnone : others.countP (·.code = utf8 "P005") = 0 := by simpa using hothers
    have hall : reports.countP (·.code = utf8 "P005") = reports.length := by simpa using hcodes
    rw [hsplit, List.countP_append, hnone, hall, hlength, Nat.zero_add]
  · intro hnil
    rw [hnil] at hfaults hsplit
    constructor
    · intro i hi hattempt
      have hi' : i < (rolesAll (parse tokens).nodes).length := by
        rwa [← hfst, List.length_map] at hi
      obtain ⟨⟨t, role⟩, hrole⟩ : ∃ x, (rolesAll (parse tokens).nodes)[i]? = some x :=
        ⟨_, List.getElem?_eq_getElem hi'⟩
      have ht : (Header.visible tokens)[i]? = some t := by
        rw [← hfst, List.getElem?_map, hrole, Option.map_some]
      have hlet := kind_of_isAttempt ht ((Header.isAttempt_visible hi).trans hattempt)
      have hplain : role ≠ .plain := by
        rintro rfl
        have hmem : i ∈ plainIndices (parse tokens).nodes := by
          rw [plainIndices, List.mem_filter, hrole]
          simpa using hi'
        exact List.countP_eq_zero.1 hfaults.symm i hmem hattempt
      obtain ⟨header, index, rfl, hblock⟩ :=
        hwell.role_of_let (List.mem_of_getElem? hrole) hlet hplain
      exact ⟨t, header, index, hrole, hblock⟩
    · have hopen : openBlocks (parse tokens).nodes = [] := by
        rw [← List.length_eq_zero_iff, ← hlength, (List.append_eq_nil_iff.1 hsplit.symm).2,
          List.length_nil]
      intro node hnode
      simpa using List.filter_eq_nil_iff.1 hopen node hnode

end Node

end LetBlocks
