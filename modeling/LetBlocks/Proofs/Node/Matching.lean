import LetBlocks.Proofs.Node.Mismatches
import LetBlocks.Proofs.Node.Reports

/-!
The parser has a list of open brackets for each scope, and a closing bracket may pass over
brackets that are still open. Where brackets match pair by pair there is no need for that: one
list for all scopes will do, in which a block counts as an open brace, and each closing bracket
closes the innermost. `Token.nest` is a step of that machine. As long as it goes on, the parser
follows it. So the brace that closes a block is the one that matches the block's opening brace,
and nothing is reported of the brackets on the way.
-/

namespace LetBlocks

open Token

/-! ### Brackets that match pair by pair -/

/-- The brackets that are open behind a token, if it closes none but the innermost. -/
def Token.nest (opened : List Bracket) (t : Token) : Option (List Bracket) :=
  match t.opens?, t.closes? with
  | some bracket, _ => some (bracket :: opened)
  | none, some bracket => if opened.head? = some bracket then some opened.tail else none
  | none, none => some opened

def Token.nestAll (opened : List Bracket) (ts : List Token) : Option (List Bracket) :=
  ts.foldlM nest opened

namespace Token

variable {opened next base : List Bracket} {t : Token} {ts us : List Token} {bracket : Bracket}

theorem nest_of_opens? (h : t.opens? = some bracket) :
    t.nest opened = some (bracket :: opened) := by
  rw [nest, h]

theorem nest_of_plain (hopens : t.opens? = none) (hcloses : t.closes? = none) :
    t.nest opened = some opened := by
  rw [nest, hopens, hcloses]

theorem nest_of_closes? (h : t.closes? = some bracket) :
    t.nest opened = some next ↔ opened = bracket :: next := by
  rw [nest, opens?_eq_none_of_closes? h, h]
  cases opened with
  | nil => simp
  | cons inner outer => simp

theorem nestAll_cons : nestAll opened (t :: ts) = (t.nest opened).bind (nestAll · ts) := rfl

theorem nestAll_append : nestAll opened (ts ++ us) = (nestAll opened ts).bind (nestAll · us) :=
  List.foldlM_append

theorem nestAll_append_eq_some_iff :
    nestAll opened (ts ++ us) = some next ↔
      ∃ between, nestAll opened ts = some between ∧ nestAll between us = some next := by
  rw [nestAll_append, Option.bind_eq_some_iff]

theorem nestAll_cons_eq_some_iff :
    nestAll opened (t :: ts) = some next ↔
      ∃ between, t.nest opened = some between ∧ nestAll between ts = some next := by
  rw [nestAll_cons, Option.bind_eq_some_iff]

theorem nestAll_singleton : nestAll opened [t] = t.nest opened := by
  rw [nestAll_cons]
  exact Option.bind_fun_some _

/-- Where brackets match pair by pair, the parser counts them in the same way and has nothing
to report. -/
theorem bracketsAfter_of_nest (h : t.nest opened = some next) :
    t.bracketsAfter opened = next := by
  cases hcloses : t.closes? with
  | some bracket => rw [(nest_of_closes? hcloses).1 h, bracketsAfter_cons hcloses]
  | none =>
      cases hopens : t.opens? with
      | some bracket =>
          rw [nest_of_opens? hopens] at h
          rw [bracketsAfter_of_opens? hopens, Option.some.inj h]
      | none =>
          rw [nest_of_plain hopens hcloses] at h
          rw [bracketsAfter_of_plain hopens hcloses, Option.some.inj h]

theorem clashes_of_nest (h : t.nest opened = some next) (inBlock : Bool) :
    t.clashes inBlock opened = [] := by
  have hmismatches : t.mismatches inBlock opened = [] := by
    cases hcloses : t.closes? with
    | none => exact mismatches_of_closes?_eq_none inBlock opened hcloses
    | some bracket =>
        rw [nest_of_closes? hcloses] at h
        rw [h]
        cases inBlock <;> simp [mismatches, hcloses]
  rw [clashes, hmismatches, List.map_nil]

theorem foldl_bracketsAfter_of_nestAll (h : nestAll opened ts = some next) :
    ts.foldl bracketsAfter opened = next := by
  induction ts generalizing opened with
  | nil => exact Option.some.inj h
  | cons t ts ih =>
      obtain ⟨between, ht, hts⟩ := nestAll_cons_eq_some_iff.1 h
      rw [List.foldl_cons, bracketsAfter_of_nest ht, ih hts]

end Token

namespace Header

/-- A run with matching brackets leaves open what was open before it. -/
theorem Matched.nestAll {commas : Bool} {ts : List Token} (h : Matched commas ts) :
    ∀ opened : List Bracket, Token.nestAll opened ts = some opened := by
  induction h with
  | nil => exact fun _ => rfl
  | plain hopens hcloses _ _ ih =>
      intro opened
      rw [nestAll_cons, nest_of_plain hopens hcloses, Option.bind_some, ih]
  | group hopens hcloses _ _ ihinner ih =>
      intro opened
      rw [List.cons_append, nestAll_cons, nest_of_opens? hopens, Option.bind_some,
        nestAll_append, ihinner, Option.bind_some, nestAll_cons,
        (nest_of_closes? hcloses).2 rfl, Option.bind_some, ih]

theorem length_lt_of_split {ts inner after : List Token} {t : Token}
    (h : ts = inner ++ t :: after) : after.length < ts.length := by
  rw [h, List.length_append, List.length_cons]
  omega

/-- What is open is closed by the first token behind a run with matching brackets. -/
theorem exists_closer {bracket : Bracket} {opened : List Bracket} :
    ∀ {ts : List Token}, Token.nestAll (bracket :: opened) ts = some [] →
      ∃ inner closer after, ts = inner ++ closer :: after ∧ Matched true inner ∧
        closer.closes? = some bracket ∧ Token.nestAll opened after = some []
  | [], h => by cases h
  | t :: ts, h => by
      obtain ⟨between, ht, hts⟩ := nestAll_cons_eq_some_iff.1 h
      cases hcloses : t.closes? with
      | some bracket' =>
          cases (nest_of_closes? hcloses).1 ht
          exact ⟨[], t, ts, rfl, .nil, hcloses, hts⟩
      | none =>
          cases hopens : t.opens? with
          | none =>
              cases (nest_of_plain hopens hcloses).symm.trans ht
              obtain ⟨inner, closer, after, rfl, hinner, hcloser, hafter⟩ := exists_closer hts
              exact ⟨t :: inner, closer, after, rfl, .plain hopens hcloses (.inl rfl) hinner,
                hcloser, hafter⟩
          | some bracket' =>
              -- the group that the token opens ends first, and the rest is shorter still
              cases (nest_of_opens? hopens).symm.trans ht
              obtain ⟨inner, closer, after, hsplit, hinner, hcloser, hafter⟩ :=
                exists_closer hts
              have hlength : after.length < ts.length := length_lt_of_split hsplit
              obtain ⟨inner', closer', after', rfl, hinner', hcloser', hafter'⟩ :=
                exists_closer hafter
              exact ⟨t :: inner ++ closer :: inner', closer', after', by simp [hsplit],
                .group hopens hcloser hinner hinner', hcloser', hafter'⟩
termination_by ts => ts.length
decreasing_by all_goals exact Nat.lt_succ_of_le (by omega)

/-- The machine accepts just the runs with matching brackets. -/
theorem matched_iff_nestAll :
    ∀ {ts : List Token}, Matched true ts ↔ Token.nestAll [] ts = some []
  | [] => ⟨fun _ => rfl, fun _ => .nil⟩
  | t :: ts => by
      refine ⟨fun h => h.nestAll [], fun h => ?_⟩
      obtain ⟨between, ht, hts⟩ := nestAll_cons_eq_some_iff.1 h
      cases hcloses : t.closes? with
      | some bracket => cases (nest_of_closes? hcloses).1 ht
      | none =>
          cases hopens : t.opens? with
          | none =>
              cases (nest_of_plain hopens hcloses).symm.trans ht
              exact .plain hopens hcloses (.inl rfl) (matched_iff_nestAll.2 hts)
          | some bracket =>
              cases (nest_of_opens? hopens).symm.trans ht
              obtain ⟨inner, closer, after, hsplit, hinner, hcloser, hafter⟩ :=
                exists_closer hts
              have hlength : after.length < ts.length := length_lt_of_split hsplit
              have hrest := matched_iff_nestAll.2 hafter
              rw [hsplit]
              exact .group hopens hcloser hinner hrest
termination_by ts => ts.length
decreasing_by all_goals exact Nat.lt_succ_of_le (by omega)

instance (ts : List Token) : Decidable (Matched true ts) :=
  decidable_of_iff _ matched_iff_nestAll.symm

/-- A header leaves its brace open. -/
theorem IsHeader.nestAll {ts : List Token} {ds : List Declaration} (h : IsHeader ts ds)
    (opened : List Bracket) : Token.nestAll opened ts = some (.curly :: opened) := by
  cases h with
  | @intro letToken paren brace gap list after _ hlet hgap hparen hlist hafter hbrace =>
      obtain ⟨inner, close, rfl, hclose, hinner⟩ := hlist.matched
      have hlet' : Matched true [letToken] := (Matched.of_kind (by simp [hlet])).weaken
      have hopens : paren.opens? = some .round := opens?_eq_some_iff.2 (isPunct_iff.1 hparen)
      have hcloses : close.closes? = some .round :=
        closes?_eq_some_iff.2 (isPunct_iff.1 hclose)
      have hgroup : Matched true (paren :: inner ++ close :: []) :=
        .group hopens hcloses hinner .nil
      have hall :=
        ((hlet'.append hgap.matched.weaken).append hgroup).append hafter.matched.weaken
      have hsplit : letToken :: gap ++ paren :: (inner ++ [close]) ++ after ++ [brace] =
          [letToken] ++ gap ++ (paren :: inner ++ close :: []) ++ after ++ [brace] := by
        simp
      rw [hsplit, nestAll_append, hall.nestAll, Option.bind_some, nestAll_singleton]
      exact nest_of_opens? (opens?_eq_some_iff.2 (isPunct_iff.1 hbrace))

end Header

namespace Node

/-! ### Inside a body -/

def Inside : List Bracket → List Token → Prop
  | _, [] => True
  | opened, t :: ts =>
    (opened = [] → t.closes? ≠ some .curly) ∧
      ∀ next, t.nest opened = some next → Inside next ts

variable {opened next base : List Bracket} {ts us : List Token}

theorem inside_append :
    Inside opened (ts ++ us) ↔
      Inside opened ts ∧ ∀ next, nestAll opened ts = some next → Inside next us := by
  induction ts generalizing opened with
  | nil =>
      refine ⟨fun h => ⟨trivial, ?_⟩, fun h => h.2 opened rfl⟩
      rintro next hnext
      cases hnext
      exact h
  | cons t ts ih =>
      simp only [List.cons_append, Inside, ih, nestAll_cons_eq_some_iff]
      constructor
      · rintro ⟨hcurly, hrest⟩
        refine ⟨⟨hcurly, fun between h => (hrest between h).1⟩, ?_⟩
        rintro next ⟨between, ht, hts⟩
        exact (hrest between ht).2 next hts
      · rintro ⟨⟨hcurly, hrest⟩, hus⟩
        exact ⟨hcurly, fun between h =>
          ⟨hrest between h, fun next hts => hus next ⟨between, h, hts⟩⟩⟩

theorem inside_of_nestAll (h : nestAll opened ts = some next) : Inside opened ts := by
  induction ts generalizing opened with
  | nil => trivial
  | cons t ts ih =>
      obtain ⟨between, ht, hts⟩ := nestAll_cons_eq_some_iff.1 h
      refine ⟨?_, ?_⟩
      · rintro rfl hcloses
        cases (nest_of_closes? hcloses).1 ht
      · intro other hother
        rw [ht] at hother
        cases hother
        exact ih hts

theorem Held.inside (h : Held opened ts) : Inside opened ts := by
  induction ts generalizing opened with
  | nil => trivial
  | cons t ts ih =>
      refine ⟨?_, ?_⟩
      · rintro rfl hcloses
        cases h.1 hcloses
      · intro next hnext
        apply ih
        rw [← bracketsAfter_of_nest hnext]
        exact h.2

/-- Inside a body the brace of the block stays open, with all that is open around it. -/
theorem Inside.nest_above {t : Token} (hcurly : opened = [] → t.closes? ≠ some .curly)
    (h : t.nest (opened ++ .curly :: base) = some next) :
    ∃ above, t.nest opened = some above ∧ next = above ++ .curly :: base := by
  cases hcloses : t.closes? with
  | some bracket =>
      rw [nest_of_closes? hcloses] at h
      cases opened with
      | nil =>
          cases h
          exact absurd hcloses (hcurly rfl)
      | cons inner outer =>
          cases h
          exact ⟨outer, (nest_of_closes? hcloses).2 rfl, rfl⟩
  | none =>
      cases hopens : t.opens? with
      | some bracket =>
          rw [nest_of_opens? hopens] at h
          cases h
          exact ⟨bracket :: opened, nest_of_opens? hopens, rfl⟩
      | none =>
          rw [nest_of_plain hopens hcloses] at h
          cases h
          exact ⟨opened, nest_of_plain hopens hcloses, rfl⟩

theorem Inside.above (hinside : Inside opened ts)
    (h : nestAll (opened ++ .curly :: base) ts = some next) :
    ∃ above, nestAll opened ts = some above ∧ next = above ++ .curly :: base := by
  induction ts generalizing opened with
  | nil => exact ⟨opened, rfl, (Option.some.inj h).symm⟩
  | cons t ts ih =>
      obtain ⟨between, ht, hts⟩ := nestAll_cons_eq_some_iff.1 h
      obtain ⟨above, ht', rfl⟩ := Inside.nest_above hinside.1 ht
      obtain ⟨above', hts', rfl⟩ := ih (hinside.2 above ht') hts
      exact ⟨above', nestAll_cons_eq_some_iff.2 ⟨above, ht', hts'⟩, rfl⟩

theorem Inside.extend (hinside : Inside opened ts) (base : List Bracket) :
    Inside (opened ++ .curly :: base) ts := by
  induction ts generalizing opened with
  | nil => trivial
  | cons t ts ih =>
      refine ⟨by simp, ?_⟩
      intro next hnext
      obtain ⟨above, habove, rfl⟩ := Inside.nest_above hinside.1 hnext
      exact ih (hinside.2 above habove)

/-! ### The machine on the tokens of a tree -/

/-- What comes of a run on which the machine goes on. -/
theorem judgedRun_of_nestAll (inBlock : Bool) (h : nestAll opened ts = some next) :
    ∀ x ∈ judgedRun inBlock opened ts, x.2 = [] := by
  induction ts generalizing opened with
  | nil => simp [judgedRun]
  | cons t ts ih =>
      obtain ⟨between, ht, hts⟩ := nestAll_cons_eq_some_iff.1 h
      rw [judgedRun, List.forall_mem_cons, bracketsAfter_of_nest ht]
      exact ⟨clashes_of_nest ht inBlock, ih hts⟩

/-- A closing brace that no open brace of the body matches is reached only with nothing open in
the body. -/
theorem eq_nil_of_nest_closing {t : Token} (hcloses : t.closes? = some .curly)
    (hcurly : .curly ∉ opened) (h : t.nest (opened ++ base) = some next) : opened = [] := by
  cases opened with
  | nil => rfl
  | cons inner outer =>
      cases (nest_of_closes? hcloses).1 h
      exact absurd List.mem_cons_self hcurly

/-- What the machine makes of a block: it reports nothing, and if the block is closed, it
leaves nothing open. -/
theorem letBlock_of_nestAll {header : Header} {body : List Node} {closing : Option Token}
    {span : Span} (hwell : (letBlock header body closing span).WellFormed)
    (hinside : Inside [] (tokensAll body))
    (hclosed : closing.isSome = true → .curly ∉ openedBy [] body)
    (hbody : ∀ above, nestAll [] (tokensAll body) = some above →
      (∀ x ∈ judgedAll true [] body, x.2 = []) ∧
      ((∀ n ∈ body, n.isOpen = false) → above = openedBy [] body))
    (h : nestAll opened (letBlock header body closing span).tokens = some next)
    (inBlock : Bool) :
    (∀ x ∈ (letBlock header body closing span).judged inBlock opened, x.2 = []) ∧
      (closing.isNone = false → next = opened) ∧ (closing.isNone = true → next ≠ []) := by
  obtain ⟨hheader, hclosing, -⟩ := hwell
  rw [tokens, List.append_assoc, nestAll_append, hheader.nestAll, Option.bind_some,
    nestAll_append_eq_some_iff] at h
  obtain ⟨between, hbetween, hend⟩ := h
  obtain ⟨above, habove, rfl⟩ := hinside.above hbetween
  obtain ⟨hjudged, hopened⟩ := hbody above habove
  have hheaderJudged : ∀ x ∈ header.tokens.map (fun t => (t, ([] : List Diagnostic))), x.2 =
      [] := by
    intro x hx
    obtain ⟨t, -, rfl⟩ := List.mem_map.1 hx
    rfl
  cases closing with
  | none =>
      cases hend
      refine ⟨?_, by simp, by simp⟩
      rw [judged, Option.toList_none, List.map_nil, List.append_nil, List.forall_mem_append]
      exact ⟨hheaderJudged, hjudged⟩
  | some t =>
      obtain ⟨hcloses, hallClosed⟩ := hclosing t rfl
      rw [Option.toList_some, nestAll_singleton] at hend
      rw [← hopened hallClosed] at hclosed
      obtain rfl := eq_nil_of_nest_closing hcloses (hclosed rfl) hend
      have hnext := (nest_of_closes? hcloses).1 hend
      rw [List.nil_append, List.cons.injEq] at hnext
      refine ⟨?_, fun _ => hnext.2.symm, by simp⟩
      rw [judged, ← hopened hallClosed, List.forall_mem_append, List.forall_mem_append,
        Option.toList_some, List.map_singleton, List.forall_mem_singleton]
      refine ⟨⟨hheaderJudged, hjudged⟩, ?_⟩
      simp [Token.clashes, mismatches, hcloses]

mutual

theorem WellFormed.inside :
    ∀ {node : Node} {opened : List Bracket}, node.WellFormed → Braced true opened node →
    Inside opened node.tokens
  | plain _, _, _, hbraced => Held.inside (hbraced rfl)
  | letBlock header body closing _, opened, hwell, hbraced => by
      have hbody := WellFormedAll.inside hwell.2.2 hbraced.1
      rw [tokens, List.append_assoc, inside_append]
      refine ⟨inside_of_nestAll (hwell.1.nestAll opened), fun next hnext => ?_⟩
      rw [hwell.1.nestAll] at hnext
      cases hnext
      rw [inside_append]
      refine ⟨hbody.extend opened, fun next hnext => ?_⟩
      obtain ⟨above, -, rfl⟩ := hbody.above hnext
      cases closing with
      | none => trivial
      | some t => exact ⟨by simp, fun _ _ => trivial⟩

theorem WellFormedAll.inside :
    ∀ {nodes : List Node} {opened : List Bracket}, WellFormedAll nodes →
    BracedAll true opened nodes → Inside opened (tokensAll nodes)
  | [], _, _, _ => trivial
  | node :: nodes, opened, hwell, hbraced => by
      rw [tokensAll, inside_append]
      refine ⟨WellFormed.inside hwell.1 hbraced.1, fun next hnext => ?_⟩
      cases hopen : node.isOpen with
      | true =>
          rw [hwell.2.1 hopen]
          trivial
      | false =>
          rw [(WellFormed.nests hwell.1 hbraced.1 hnext).2.1 hopen]
          exact WellFormedAll.inside hwell.2.2.2 hbraced.2

/-- Where the machine goes on, the parser reports nothing and has the same brackets open behind
a closed node. -/
theorem WellFormed.nests :
    ∀ {node : Node} {inBlock : Bool} {opened next : List Bracket}, node.WellFormed →
    Braced inBlock opened node → nestAll opened node.tokens = some next →
    (∀ x ∈ node.judged inBlock opened, x.2 = []) ∧
      (node.isOpen = false → next = openedBy opened [node]) ∧ (node.isOpen = true → next ≠ [])
  | plain ts, inBlock, opened, next, _, _, h => by
      refine ⟨judgedRun_of_nestAll inBlock h, fun _ => ?_, by simp [isOpen]⟩
      exact (foldl_bracketsAfter_of_nestAll h).symm
  | letBlock header body closing _, inBlock, opened, next, hwell, hbraced, h => by
      refine letBlock_of_nestAll hwell (WellFormedAll.inside hwell.2.2 hbraced.1) hbraced.2 ?_
        h inBlock
      intro above habove
      obtain ⟨hjudged, hopened, -⟩ := WellFormedAll.nests hwell.2.2 hbraced.1 habove
      exact ⟨hjudged, hopened⟩

theorem WellFormedAll.nests :
    ∀ {nodes : List Node} {inBlock : Bool} {opened next : List Bracket}, WellFormedAll nodes →
    BracedAll inBlock opened nodes → nestAll opened (tokensAll nodes) = some next →
    (∀ x ∈ judgedAll inBlock opened nodes, x.2 = []) ∧
      ((∀ n ∈ nodes, n.isOpen = false) → next = openedBy opened nodes) ∧
      (next = [] → ∀ n ∈ nodes, n.isOpen = false)
  | [], _, _, _, _, _, h => ⟨by simp [judgedAll], fun _ => (Option.some.inj h).symm, by simp⟩
  | node :: nodes, inBlock, opened, next, hwell, hbraced, h => by
      obtain ⟨between, hnode, hnodes⟩ := nestAll_append_eq_some_iff.1 h
      obtain ⟨hjudged, hclosed, hopen⟩ := WellFormed.nests hwell.1 hbraced.1 hnode
      cases hisOpen : node.isOpen with
      | true =>
          -- an open block is the last of its sequence
          obtain rfl := hwell.2.1 hisOpen
          cases hnodes
          rw [judgedAll, judgedAll, List.append_nil]
          refine ⟨hjudged, fun hall => ?_, fun hnil => absurd hnil (hopen hisOpen)⟩
          simp [hisOpen] at hall
      | false =>
          rw [hclosed hisOpen] at hnodes
          obtain ⟨hjudgedAll, hclosedAll, hend⟩ :=
            WellFormedAll.nests hwell.2.2.2 hbraced.2 hnodes
          rw [judgedAll, List.forall_mem_append, List.forall_mem_cons,
            openedBy_cons opened node nodes]
          exact ⟨⟨hjudged, hjudgedAll⟩, fun hall => hclosedAll hall.2,
            fun hnil => ⟨hisOpen, hend hnil⟩⟩

end

theorem split_of_append_eq {α : Type} {xs ys as bs : List α} {b : α}
    (h : xs ++ ys = as ++ b :: bs) :
    (∃ rest, as = xs ++ rest ∧ ys = rest ++ b :: bs) ∨ ∃ rest, xs = as ++ b :: rest := by
  rcases List.append_eq_append_iff.1 h with ⟨rest, has, hys⟩ | ⟨rest, hxs, hbs⟩
  · exact .inl ⟨rest, has, hys⟩
  · cases rest with
    | nil => exact .inl ⟨[], by simpa using hxs.symm, hbs.symm⟩
    | cons c rest =>
        rw [List.cons_append, List.cons.injEq] at hbs
        exact .inr ⟨rest, hbs.1 ▸ hxs⟩

/-- A block ends where its brackets do: if a run with matching brackets and then a closing
brace follow the header, these are the body and the closing brace of the block, and nothing is
reported of them. -/
theorem WellFormed.ends_at_brace {header : Header} {body : List Node} {closing : Option Token}
    {span : Span} (hwell : (letBlock header body closing span).WellFormed) {inBlock : Bool}
    (hbraced : Braced inBlock opened (letBlock header body closing span))
    {inner after more : List Token} {brace : Token} (hinner : nestAll [] inner = some [])
    (hbrace : brace.closes? = some .curly) (hafter : closing.isNone = true → after = [])
    (hsplit : tokensAll body ++ closing.toList ++ after = inner ++ brace :: more) :
    closing = some brace ∧ tokensAll body = inner ∧ (∀ x ∈ judgedAll true [] body, x.2 = []) ∧
      openedBy [] body = [] := by
  obtain ⟨-, hclosing, hbody⟩ := hwell
  rw [List.append_assoc] at hsplit
  rcases split_of_append_eq hsplit with ⟨rest, rfl, hrest⟩ | ⟨rest, hrest⟩
  · -- the body is over no later than the run
    obtain ⟨above, habove, hend⟩ := nestAll_append_eq_some_iff.1 hinner
    obtain ⟨hjudged, hclosed, -⟩ := WellFormedAll.nests hbody hbraced.1 habove
    cases closing with
    | none =>
        rw [hafter rfl] at hrest
        simp at hrest
    | some t =>
        obtain ⟨hcloses, hallClosed⟩ := hclosing t rfl
        have hopened := hclosed hallClosed
        cases rest with
        | nil =>
            rw [Option.toList_some, List.singleton_append, List.nil_append,
              List.cons.injEq] at hrest
            exact ⟨by rw [hrest.1], (List.append_nil _).symm, hjudged,
              hopened ▸ Option.some.inj hend⟩
        | cons u rest =>
            -- the closing brace of the block would close a brace of the body
            rw [Option.toList_some, List.singleton_append, List.cons_append,
              List.cons.injEq] at hrest
            obtain ⟨between, hnest, -⟩ := nestAll_cons_eq_some_iff.1 hend
            have hcurly : .curly ∈ above := by
              rw [(nest_of_closes? (hrest.1 ▸ hcloses)).1 hnest]
              exact List.mem_cons_self
            exact absurd (hopened ▸ hcurly) (hbraced.2 rfl)
  · -- the brace would be inside the body
    have hinside := WellFormedAll.inside hbody hbraced.1
    rw [hrest, inside_append] at hinside
    exact absurd hbrace ((hinside.2 [] hinner).1 rfl)

/-! ### Where the blocks of a tree stand -/

mutual

/-- A node and the nodes inside it, each with the index of its first token, if `start` is that
of the node. -/
def placed (start : Nat) : Node → List (Nat × Node)
  | plain ts => [(start, plain ts)]
  | letBlock header body closing span =>
      (start, letBlock header body closing span) ::
        placedAll (start + header.tokens.length) body

def placedAll (start : Nat) : List Node → List (Nat × Node)
  | [] => []
  | node :: nodes => node.placed start ++ placedAll (start + node.tokens.length) nodes

end

mutual

theorem map_snd_placed (start : Nat) :
    ∀ node : Node, (node.placed start).map Prod.snd = node.within
  | plain ts => rfl
  | letBlock header body closing span => by
      rw [placed, within, List.map_cons, map_snd_placedAll]

theorem map_snd_placedAll (start : Nat) :
    ∀ nodes : List Node, (placedAll start nodes).map Prod.snd = withinAll nodes
  | [] => rfl
  | node :: nodes => by
      rw [placedAll, withinAll, List.map_append, map_snd_placed start node, map_snd_placedAll]

end

/-- A node stands at an index of some judged tokens, and if it is an open block nothing stands
behind it. -/
def StandsAt (n : Node) (index : Nat) (all : List (Token × List Diagnostic)) : Prop :=
  ∃ inBlock opened before after, all = before ++ n.judged inBlock opened ++ after ∧
    before.length = index ∧
    n.WellFormed ∧ Braced inBlock opened n ∧ (n.isOpen = true → after = [])

section StandsAt

variable {n : Node} {index : Nat} {all : List (Token × List Diagnostic)}

theorem StandsAt.append_left (h : n.StandsAt index all)
    (more : List (Token × List Diagnostic)) :
    n.StandsAt (more.length + index) (more ++ all) := by
  obtain ⟨inBlock, opened, before, after, rfl, rfl, hn⟩ := h
  exact ⟨inBlock, opened, more ++ before, after, by simp, by simp, hn⟩

theorem StandsAt.append_right (h : n.StandsAt index all)
    {more : List (Token × List Diagnostic)} (hopen : n.isOpen = true → more = []) :
    n.StandsAt index (all ++ more) := by
  obtain ⟨inBlock, opened, before, after, rfl, hindex, hwell, hbraced, hafter⟩ := h
  refine ⟨inBlock, opened, before, after ++ more, by simp, hindex, hwell, hbraced, fun h => ?_⟩
  rw [hafter h, hopen h, List.append_nil]

end StandsAt

theorem WellFormedAll.isOpen_of_mem {nodes : List Node} (hwell : WellFormedAll nodes)
    (hclosed : ∀ n ∈ nodes, n.isOpen = false) {n : Node} (hn : n ∈ withinAll nodes) :
    n.isOpen = false := by
  have hfilter := List.filter_eq_nil_iff.1 (hwell.openBlocks_eq_nil hclosed) n hn
  simpa using hfilter

mutual

theorem WellFormed.standsAt :
    ∀ {node : Node} {inBlock : Bool} {opened : List Bracket} {start pos : Nat} {n : Node},
    node.WellFormed → Braced inBlock opened node → (pos, n) ∈ node.placed start →
    ∃ index, pos = start + index ∧ n.StandsAt index (node.judged inBlock opened)
  | plain ts, inBlock, opened, start, pos, n, hwell, hbraced, hmem => by
      cases List.mem_singleton.1 hmem
      exact ⟨0, rfl, inBlock, opened, [], [], by simp, rfl, hwell, hbraced, fun _ => rfl⟩
  | letBlock header body closing span, inBlock, opened, start, pos, n, hwell, hbraced,
    hmem => by
      rcases List.mem_cons.1 hmem with hself | hbody
      · cases hself
        exact ⟨0, rfl, inBlock, opened, [], [], by simp, rfl, hwell, hbraced, fun _ => rfl⟩
      · obtain ⟨index, rfl, hstands⟩ := WellFormedAll.standsAt hwell.2.2 hbraced.1 hbody
        have hleft := hstands.append_left (header.tokens.map (·, []))
        rw [List.length_map] at hleft
        refine ⟨header.tokens.length + index, by omega, hleft.append_right fun hopen => ?_⟩
        cases closing with
        | none => rfl
        | some t =>
            have hwithin : n ∈ withinAll body := by
              rw [← map_snd_placedAll (start + header.tokens.length)]
              exact List.mem_map_of_mem hbody
            have hclosed := hwell.2.2.isOpen_of_mem (hwell.2.1 t rfl).2 hwithin
            rw [hopen] at hclosed
            cases hclosed

theorem WellFormedAll.standsAt :
    ∀ {nodes : List Node} {inBlock : Bool} {opened : List Bracket} {start pos : Nat}
      {n : Node}, WellFormedAll nodes →
    BracedAll inBlock opened nodes → (pos, n) ∈ placedAll start nodes →
    ∃ index, pos = start + index ∧ n.StandsAt index (judgedAll inBlock opened nodes)
  | node :: nodes, inBlock, opened, start, pos, n, hwell, hbraced, hmem => by
      rw [judgedAll]
      rcases List.mem_append.1 hmem with hnode | hnodes
      · obtain ⟨index, hpos, hstands⟩ := WellFormed.standsAt hwell.1 hbraced.1 hnode
        refine ⟨index, hpos, hstands.append_right fun hopen => ?_⟩
        cases hisOpen : node.isOpen with
        | true =>
            rw [hwell.2.1 hisOpen]
            rfl
        | false =>
            have hwithin : n ∈ node.within := by
              rw [← map_snd_placed start]
              exact List.mem_map_of_mem hnode
            rw [← List.append_nil node.within] at hwithin
            exact absurd hopen (List.filter_eq_nil_iff.1 (hwell.1.openBlocks_eq_nil hisOpen) n
              hwithin)
      · obtain ⟨index, rfl, hstands⟩ := WellFormedAll.standsAt hwell.2.2.2 hbraced.2 hnodes
        have hlength : (node.judged inBlock opened).length = node.tokens.length := by
          rw [← map_fst_judged inBlock opened node, List.length_map]
        have hleft := hstands.append_left (node.judged inBlock opened)
        rw [hlength] at hleft
        exact ⟨node.tokens.length + index, by omega, hleft⟩

end

/-! ### In the tree of a list of tokens -/

theorem map_fst_judgedAll_parse (tokens : List Token) :
    (judgedAll false [] (parse tokens).nodes).map Prod.fst = Header.visible tokens := by
  rw [map_fst_judgedAll, (parse_spec tokens).2, Header.visible]

/-- A stretch of judged tokens of which nothing is reported. -/
theorem quiet_of_split {all before between after : List (Token × List Diagnostic)}
    (hall : all = before ++ between ++ after) (hquiet : ∀ x ∈ between, x.2 = []) {i : Nat}
    (hle : before.length ≤ i) (hlt : i < before.length + between.length) :
    (all[i]?).map Prod.snd = some [] := by
  have hi : i - before.length < between.length := by omega
  have hget : all[i]? = some between[i - before.length] := by
    rw [hall, List.append_assoc, List.getElem?_append_right hle, List.getElem?_append_left hi,
      List.getElem?_eq_getElem hi]
  rw [hget, Option.map_some, hquiet _ (List.getElem_mem hi)]

/-- What a reader sees from an index on, if it sees the tokens before. -/
theorem visible_drop {tokens before rest : List Token}
    (h : Header.visible tokens = before ++ rest) :
    Header.visible (tokens.drop before.length) = rest ∧
      tokens.take before.length = before := by
  obtain ⟨hidden, htokens, hnil⟩ := Header.exists_hidden tokens
  have hrest : ∀ t ∈ rest, t.isEof = false := by
    intro t ht
    exact Header.noEof_visible tokens t (by rw [h]; exact List.mem_append_right _ ht)
  rw [h, List.append_assoc] at htokens
  constructor
  · rw [htokens, List.drop_left, Header.visible_append hrest, hnil, List.append_nil]
  · rw [htokens, List.take_left]

/-- What a reader sees from the beginning of a stretch on that a brace follows. -/
theorem visible_drop_of_brace {tokens : List Token} {start k : Nat} {brace : Token}
    (hstart : start ≤ k) (heof : ∀ t ∈ Header.slice tokens start k, t.isEof = false)
    (hk : tokens[k]? = some brace) (hbrace : brace.closes? = some .curly) :
    Header.visible (tokens.drop start) =
      Header.slice tokens start k ++ brace :: Header.visible (tokens.drop (k + 1)) := by
  obtain ⟨hlt, rfl⟩ := List.getElem?_eq_some_iff.1 hk
  have hbraceEof : tokens[k].isEof = false :=
    isEof_of_kind_punct (closes?_eq_some_iff.1 hbrace).1
  rw [Header.drop_eq_slice_append hstart, Header.visible_append heof,
    List.drop_eq_getElem_cons hlt, ← List.singleton_append,
    Header.visible_append (List.forall_mem_singleton.2 hbraceEof), List.singleton_append]

/-- A let-block of the tree ends at the brace that matches its opening brace. -/
theorem letBlock_of_matched {tokens : List Token} {index : Nat} {header : Header}
    {body : List Node} {closing : Option Token} {span : Span}
    (hmem : (index, letBlock header body closing span) ∈ placedAll 0 (parse tokens).nodes) :
    Header.slice tokens index (index + header.tokens.length) = header.tokens ∧
      ∀ k brace, index + header.tokens.length ≤ k →
        (∀ t ∈ Header.slice tokens (index + header.tokens.length) k, t.isEof = false) →
        Header.Matched true (Header.slice tokens (index + header.tokens.length) k) →
        tokens[k]? = some brace → brace.closes? = some .curly → closing = some brace ∧
          tokensAll body = Header.slice tokens (index + header.tokens.length) k ∧
          ∀ i, index + header.tokens.length ≤ i → i ≤ k →
            ((judgedAll false [] (parse tokens).nodes)[i]?).map Prod.snd = some [] := by
  obtain ⟨index', hindex', inBlock, opened, before, after, hall, hlength, hwell, hbraced,
      hafter⟩ :=
    (parse_spec tokens).1.standsAt (bracedAll_parse tokens) hmem
  obtain rfl : index = before.length := by omega
  have hvisible : Header.visible tokens =
      before.map Prod.fst ++
        (header.tokens ++ (tokensAll body ++ closing.toList ++ after.map Prod.fst)) := by
    rw [← map_fst_judgedAll_parse, hall, List.map_append, List.map_append, map_fst_judged,
      Node.tokens]
    simp
  obtain ⟨hfromHeader, -⟩ := visible_drop hvisible
  obtain ⟨-, hheader⟩ := visible_drop hfromHeader
  rw [List.length_map] at hheader
  rw [← List.append_assoc] at hvisible
  obtain ⟨hfromBody, -⟩ := visible_drop hvisible
  rw [List.length_append, List.length_map] at hfromBody
  refine ⟨by rw [Header.slice, Nat.add_sub_cancel_left, hheader], ?_⟩
  intro k brace hk heof hmatched hget hcloses
  have hsplit := hfromBody.symm.trans (visible_drop_of_brace hk heof hget hcloses)
  obtain ⟨rfl, hbody, hquiet, hopened⟩ :=
    hwell.ends_at_brace hbraced (hmatched.nestAll []) hcloses
      (fun hnone => by rw [hafter hnone, List.map_nil]) hsplit
  refine ⟨rfl, hbody, fun i hle hlt => ?_⟩
  have hbodyLength : (judgedAll true [] body).length =
      k - (before.length + header.tokens.length) := by
    obtain ⟨hlt', -⟩ := List.getElem?_eq_some_iff.1 hget
    rw [← List.length_map Prod.fst, map_fst_judgedAll, hbody, Header.slice, List.length_take,
      List.length_drop]
    omega
  have hsplitJudged : judgedAll false [] (parse tokens).nodes =
      (before ++ header.tokens.map (·, [])) ++
      (judgedAll true [] body ++ [(brace, brace.clashes true (openedBy [] body))]) ++
      after := by
    rw [hall, Node.judged]
    simp
  refine quiet_of_split hsplitJudged ?_ ?_ ?_
  · rw [List.forall_mem_append, List.forall_mem_singleton]
    refine ⟨hquiet, ?_⟩
    rw [hopened]
    simp [Token.clashes, mismatches, hcloses]
  · simpa using hle
  · simp only [List.length_append, List.length_map, List.length_singleton, hbodyLength]
    omega

/-- If the brackets of a script match pair by pair, its blocks are closed and nothing is
reported of brackets. -/
theorem closed_of_matched {tokens : List Token}
    (h : Header.Matched true (Header.visible tokens)) :
    (∀ node ∈ withinAll (parse tokens).nodes, node.isOpen = false) ∧
      ∀ d ∈ (parse tokens).diagnostics, d.code ≠ utf8 "P005" ∧ d.code ≠ utf8 "P006" := by
  have hwell := (parse_spec tokens).1
  have hnest : nestAll [] (tokensAll (parse tokens).nodes) = some [] := by
    rw [(parse_spec tokens).2]
    exact h.nestAll []
  obtain ⟨hquiet, -, hend⟩ := hwell.nests (bracedAll_parse tokens) hnest
  have hclosed := hend rfl
  have hopenBlocks := hwell.openBlocks_eq_nil hclosed
  refine ⟨fun node hnode => hwell.isOpen_of_mem hclosed hnode,
    fun d hd => ⟨fun hcode => ?_, fun hcode => ?_⟩⟩
  · obtain ⟨others, reports, hsplit, hothers, hreports, -⟩ := exists_openReports_parse tokens
    rw [hopenBlocks, List.reverse_nil, List.map_nil, List.map_eq_nil_iff] at hreports
    rw [hsplit, hreports, List.append_nil] at hd
    exact hothers d hd hcode
  · have hmem : d ∈ (parse tokens).diagnostics.filter isMismatch := by
      rw [List.mem_filter, isMismatch, hcode]
      exact ⟨hd, beq_self_eq_true _⟩
    rw [filter_isMismatch_parse, List.mem_flatMap] at hmem
    obtain ⟨x, hx, hdx⟩ := hmem
    rw [hquiet x hx] at hdx
    cases hdx

/-- A let-block is closed by the brace that matches its opening brace. For any tokens, every
block of the tree has a place among them. If behind its header there is a run with matching
brackets and then a closing brace, they are its body and its closing brace, and no bracket of
them is reported as one that does not match. The reports of that kind are those that the tree
lists token by token, each at its token. So if the brackets of the whole script match, no block
is open, and neither open blocks nor brackets are reported. -/
theorem closes_at_matching_brace (tokens : List Token) :
    (placedAll 0 (parse tokens).nodes).map Prod.snd = withinAll (parse tokens).nodes ∧
    (judgedAll false [] (parse tokens).nodes).map Prod.fst = Header.visible tokens ∧
    (judgedAll false [] (parse tokens).nodes).flatMap Prod.snd =
      (parse tokens).diagnostics.filter (·.code == utf8 "P006") ∧
    (∀ x ∈ judgedAll false [] (parse tokens).nodes, ∀ d ∈ x.2, d.span = x.1.span) ∧
    (∀ index header body closing span,
      (index, letBlock header body closing span) ∈ placedAll 0 (parse tokens).nodes →
      let start := index + header.tokens.length
      Header.slice tokens index start = header.tokens ∧
        ∀ k brace, start ≤ k → (∀ t ∈ Header.slice tokens start k, t.isEof = false) →
          Header.Matched true (Header.slice tokens start k) → tokens[k]? = some brace →
          brace.closes? = some .curly →
          closing = some brace ∧ tokensAll body = Header.slice tokens start k ∧
            ∀ i, start ≤ i → i ≤ k →
              ((judgedAll false [] (parse tokens).nodes)[i]?).map Prod.snd = some []) ∧
    (Header.Matched true (Header.visible tokens) →
      (∀ node ∈ withinAll (parse tokens).nodes, node.isOpen = false) ∧
        ∀ d ∈ (parse tokens).diagnostics, d.code ≠ utf8 "P005" ∧ d.code ≠ utf8 "P006") :=
  ⟨map_snd_placedAll 0 _, map_fst_judgedAll_parse tokens,
    (filter_isMismatch_parse tokens).symm,
    span_judgedAll false [] _, fun _ _ _ _ _ hmem => letBlock_of_matched hmem,
    closed_of_matched⟩

def nestedBody : List Token :=
  [{ kind := .kwLet, lexeme := utf8 "let" }, { kind := .punct, lexeme := utf8 "(" },
    { kind := .punct, lexeme := utf8 ")" }, { kind := .kwLet, lexeme := utf8 "let" },
    { kind := .punct, lexeme := utf8 "(" }, { kind := .identifier, lexeme := utf8 "b" },
    { kind := .punct, lexeme := utf8 ")" }, { kind := .punct, lexeme := utf8 "\x7b" },
    { kind := .punct, lexeme := utf8 "[" }, { kind := .punct, lexeme := utf8 "]" },
    { kind := .punct, lexeme := utf8 "\x7d" }]

def nestedTokens : List Token :=
  [{ kind := .kwLet, lexeme := utf8 "let" }, { kind := .punct, lexeme := utf8 "(" },
    { kind := .identifier, lexeme := utf8 "a" }, { kind := .punct, lexeme := utf8 ")" },
    { kind := .punct, lexeme := utf8 "\x7b" }] ++ nestedBody ++
  [{ kind := .punct, lexeme := utf8 "\x7d" }, { kind := .punct, lexeme := utf8 "\x7d" },
    { kind := .eof, lexeme := [] }]

theorem closes_at_matching_brace_nested :
    ∃ header body span,
      (0, letBlock header body nestedTokens[16]? span) ∈
        placedAll 0 (parse nestedTokens).nodes ∧ tokensAll body = nestedBody ∧
        ∀ i, 5 ≤ i → i ≤ 16 → ((judgedAll false [] (parse nestedTokens).nodes)[i]?).map
          Prod.snd = some [] := by
  obtain ⟨-, -, -, -, hblocks, -⟩ := closes_at_matching_brace nestedTokens
  have hfirst : (placedAll 0 (parse nestedTokens).nodes).head?.map
      (fun x => (x.1, x.2.isPlain, x.2.isOpen,
        x.2.tokens.length - (tokensAll x.2.body).length)) =
        some (0, false, false, 6) := by
    decide +kernel
  obtain ⟨⟨index, node⟩, hhead, hfacts⟩ := Option.map_eq_some_iff.1 hfirst
  cases node with
  | plain ts => simp [isPlain] at hfacts
  | letBlock header body closing span =>
      simp only [Prod.mk.injEq, isOpen, Node.tokens, Node.body, List.length_append] at hfacts
      obtain ⟨rfl, -, hclosed, hheld⟩ := hfacts
      have hlength : header.tokens.length = 5 := by
        cases closing with
        | none => cases hclosed
        | some t =>
            rw [Option.toList_some, List.length_singleton] at hheld
            omega
      have hmem := List.mem_of_mem_head? hhead
      obtain ⟨-, hends⟩ := hblocks 0 header body closing span hmem
      rw [hlength] at hends
      obtain ⟨hclosing, hbody, hquiet⟩ :=
        hends 16 nestedTokens[16] (by decide) (by decide +kernel) (by decide +kernel) rfl rfl
      rw [hclosing] at hmem
      exact ⟨header, body, span, hmem, hbody, hquiet⟩

end Node

end LetBlocks
