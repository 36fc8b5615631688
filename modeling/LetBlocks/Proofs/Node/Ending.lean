import LetBlocks.Proofs.Node.Reports
import LetBlocks.Proofs.Node.Spans
import LetBlocks.Proofs.Node.Twins
import LetBlocks.Proofs.Token.Placement

/-!
The last token of a script is its end of input. The parser gets along without it: the tree of
the other tokens has the same form, and the same is reported. The one difference is where the
blocks without a closing brace end. With the end of input they end there, one place behind the
last byte, and without it they end with the last token.
-/

namespace LetBlocks

/-! ### The last token of a source -/

namespace Token

theorem lexeme_ne_nil_of_lexAlong {source : Source} {regions : List Region} {ts : List Token}
    (htokens : (lexAlong source regions).tokens = ts ++ [endOf source]) :
    ∀ t ∈ ts, t.lexeme ≠ [] := by
  intro t ht
  rw [tokens_lexAlong, List.append_left_inj] at htokens
  rw [← htokens, List.mem_map] at ht
  obtain ⟨x, hx, rfl⟩ := ht
  obtain ⟨p, hp, -, hlexeme, -⟩ := Piece.kind_of_mem_placed hx
  exact hlexeme ▸ ((Piece.tiles_cut source.content regions).2 p hp).2

/-- The end of input lies one place behind the last byte of the last token before it. -/
theorem offset_stop_endOf {source : Source} {regions : List Region} {ts : List Token}
    (htokens : (lexAlong source regions).tokens = ts ++ [endOf source]) {t : Token}
    (ht : ts.getLast? = some t) :
    (endOf source).span.stop.offset = t.span.stop.offset + 1 := by
  obtain ⟨before, rfl⟩ := List.getLast?_eq_some_iff.1 ht
  have hpos : 0 < t.lexeme.length :=
    List.length_pos_iff.2 (lexeme_ne_nil_of_lexAlong htokens t (by simp))
  have hlies := lies_lexAlong source regions
  rw [htokens, List.append_assoc, lies_append, Nat.zero_add] at hlies
  obtain ⟨-, -, hspan, -, hend, -⟩ := hlies
  generalize (join before).length = pos at hspan hend
  obtain ⟨last, hlast⟩ : ∃ last, pos + t.lexeme.length = last + 1 :=
    ⟨pos + t.lexeme.length - 1, by omega⟩
  rw [hend, hspan, hlast]
  have hlt : pos < last + 1 := by omega
  simp [Source.span, Source.location, hlt, endOf]

end Token

namespace Node

/-! ### Trees that differ in where open blocks end -/

mutual

/-- The node with its blocks made to end at `stop` that have no closing brace. -/
def endAt (stop : Location) : Node → Node
  | plain tokens => plain tokens
  | letBlock header body closing span =>
    letBlock header (endAllAt stop body) closing
      { span with stop := closing.elim stop fun _ => span.stop }

def endAllAt (stop : Location) : List Node → List Node
  | [] => []
  | node :: nodes => node.endAt stop :: endAllAt stop nodes

end

def stop? : Node → Option Location
  | plain _ => none
  | letBlock _ _ _ span => some span.stop

theorem eq_of_option_twin {t u : Option Token} (h : Option.Rel (· = ·) t u) : t = u := by
  cases h with
  | none => rfl
  | some htu => exact congrArg some htu

variable {stop stop' : Location}

mutual

theorem Twin.eq_endAt {a b : Node} (h : a.Twin (· = ·) b) (ha : SpannedAll stop [a])
    (hb : SpannedAll stop' [b]) : b = a.endAt stop' := by
  cases h with
  | plain h =>
      rw [List.forall₂_eq_eq_eq] at h
      rw [endAt, h]
  | @letBlock header _ _ _ closing _ _ _ hheader hbody hclosing =>
      obtain ⟨rfl, hspans, -⟩ := spannedAll_cons_letBlock.1 ha
      obtain ⟨rfl, hspans', -⟩ := spannedAll_cons_letBlock.1 hb
      obtain rfl := hheader.eq
      obtain rfl := eq_of_option_twin hclosing
      rw [endAt, ← twins_eq_endAllAt hbody hspans hspans']
      cases closing <;> rfl

theorem twins_eq_endAllAt {as bs : List Node} (h : List.Forall₂ (Twin (· = ·)) as bs)
    (ha : SpannedAll stop as) (hb : SpannedAll stop' bs) : bs = endAllAt stop' as := by
  cases h with
  | nil => rfl
  | cons hab hrest =>
      rw [spannedAll_cons] at ha hb
      rw [endAllAt, ← hab.eq_endAt ha.1 hb.1, ← twins_eq_endAllAt hrest ha.2 hb.2]

end

/-- Without open blocks it does not matter where open blocks would end. -/
theorem SpannedAll.of_openBlocks {nodes : List Node} (h : SpannedAll stop nodes)
    (hopen : openBlocks nodes = []) (stop' : Location) : SpannedAll stop' nodes := by
  intro n hn
  have hclosed : n.isOpen = false := by
    have hfilter := List.filter_eq_nil_iff.1 hopen n hn
    simpa using hfilter
  cases n with
  | plain ts => trivial
  | letBlock header body closing span =>
      cases closing with
      | none => cases hclosed
      | some t => exact h _ hn

theorem SpannedAll.stop?_of_mem {nodes : List Node} (h : SpannedAll stop nodes) {n : Node}
    (hn : n ∈ openBlocks nodes) : n.stop? = some stop := by
  obtain ⟨hmem, hopen⟩ := List.mem_filter.1 hn
  have hspan := h n hmem
  cases n with
  | plain ts => cases hopen
  | letBlock header body closing span =>
      cases closing with
      | none => rw [stop?, hspan]; rfl
      | some t => cases hopen

theorem endAllAt_parse {tokens : List Token} (hopen : openBlocks (parse tokens).nodes = [])
    (stop : Location) : endAllAt stop (parse tokens).nodes = (parse tokens).nodes := by
  have hsame : List.Forall₂ (· = ·) tokens tokens := List.forall₂_same.2 fun _ _ => rfl
  have htwins := (parse_twin (fun _ _ h => .of_eq h) hsame).1
  have hspans := spannedAll_parse tokens
  exact (twins_eq_endAllAt htwins hspans (hspans.of_openBlocks hopen stop)).symm

/-- The end of input does not lie where the last token before it ends. -/
theorem stop_endOf_ne {source : Source} {regions : List Region} {ts : List Token}
    (htokens : (Token.lexAlong source regions).tokens = ts ++ [Token.endOf source])
    (hne : ts ≠ []) : scriptStop ts ≠ (Token.endOf source).span.stop := by
  intro hstops
  have hlast := List.getLast?_eq_some_getLast hne
  have hoffset := Token.offset_stop_endOf htokens hlast
  rw [← hstops, scriptStop, hlast, Option.elim_some, UInt32.left_eq_add] at hoffset
  exact absurd hoffset (by decide)

/-- An end of input behind the tokens changes nothing but where open blocks end. -/
theorem parse_concat_eof (ts : List Token) {e : Token} (he : e.isEof = true) :
    (parse ts).diagnostics = (parse (ts ++ [e])).diagnostics ∧
      (parse ts).nodes = endAllAt (scriptStop ts) (parse (ts ++ [e])).nodes := by
  have hvisible : (ts ++ [e]).takeWhile (!·.isEof) = ts.takeWhile (!·.isEof) := by
    induction ts with
    | nil => simp [he]
    | cons t ts ih => rw [List.cons_append, List.takeWhile_cons, List.takeWhile_cons, ih]
  let p := Progress.run {} (ts.takeWhile (!·.isEof))
  have htwin : p.Twin (· = ·) p :=
    Progress.twin_start.run (fun _ _ h => .of_eq h) (List.forall₂_same.2 fun _ _ => rfl)
  have hnodes := (htwin.finish (scriptStop (ts ++ [e])) (scriptStop ts)).scope.toNodes
  have hparse : parse (ts ++ [e]) =
      ⟨(p.finish (scriptStop (ts ++ [e]))).scope.toNodes,
        (p.finish (scriptStop (ts ++ [e]))).diagnostics.reverse⟩ := by
    rw [parse_eq, hvisible]
    rfl
  have hspans := spannedAll_parse (ts ++ [e])
  rw [hparse] at hspans ⊢
  refine ⟨?_, twins_eq_endAllAt hnodes hspans (spannedAll_parse ts)⟩
  rw [Progress.diagnostics_finish, ← Progress.diagnostics_finish p (scriptStop ts), parse_eq]
  rfl

/-- The end of input has no part in what is reported of a source, and in the tree only where
blocks end that lack their closing brace: they end there if it is given to the parser, and else
with the last token. So the two trees are the same exactly if there are no such blocks. -/
theorem parse_dropLast_lexAlong (source : Source) (regions : List Region) :
    let tokens := (Token.lexAlong source regions).tokens
    (parse tokens.dropLast).diagnostics = (parse tokens).diagnostics ∧
      (parse tokens.dropLast).nodes =
        endAllAt (scriptStop tokens.dropLast) (parse tokens).nodes ∧
      (∀ n ∈ openBlocks (parse tokens).nodes, n.stop? = some (Token.endOf source).span.stop) ∧
      ((parse tokens.dropLast).nodes = (parse tokens).nodes ↔
        openBlocks (parse tokens).nodes = []) := by
  intro tokens
  obtain ⟨ts, htokens, -, -⟩ := Token.exists_lexAlong source regions
  have hdrop : tokens.dropLast = ts := by
    have hconcat : (ts ++ [Token.endOf source]).dropLast = ts := List.dropLast_concat
    rwa [← htokens] at hconcat
  have hstop : scriptStop tokens = (Token.endOf source).span.stop := by
    have happend := scriptStop_append ts (List.cons_ne_nil (Token.endOf source) [])
    rwa [← htokens] at happend
  obtain ⟨hdiagnostics, hnodes⟩ := parse_concat_eof ts (e := Token.endOf source) rfl
  rw [← htokens, ← hdrop] at hdiagnostics hnodes
  have hspans := spannedAll_parse tokens
  refine ⟨hdiagnostics, hnodes, fun n hn => hstop ▸ hspans.stop?_of_mem hn, fun heq => ?_,
    fun hopen => ?_⟩
  · rw [List.eq_nil_iff_forall_not_mem]
    intro n hn
    -- the one block would end at both places
    have hspans' := heq ▸ spannedAll_parse tokens.dropLast
    have hstops : scriptStop tokens.dropLast = scriptStop tokens :=
      Option.some.inj ((hspans'.stop?_of_mem hn).symm.trans (hspans.stop?_of_mem hn))
    rw [hdrop, hstop] at hstops
    refine stop_endOf_ne htokens ?_ hstops
    rintro rfl
    rw [← heq, hdrop, parse_nil] at hn
    cases hn
  · rw [hnodes, endAllAt_parse hopen]

/-- The last token is the brace, and with the end of input the block reaches past it. -/
theorem open_block_reaches_past_last_token :
    let tokens := (Token.lex (Source.ofText (utf8 "let (a) \x7b"))).tokens
    let last := tokens.dropLast.getLast?.map (·.span.stop)
    (openBlocks (parse tokens.dropLast).nodes).map stop? = [last] ∧
      (openBlocks (parse tokens).nodes).map stop? ≠ [last] := by
  intro tokens last
  have hwithout : (openBlocks (parse tokens.dropLast).nodes).map stop? = [last] := by
    decide +kernel
  exact ⟨hwithout, by decide +kernel⟩

end Node

end LetBlocks
