import LetBlocks.Proofs.Node.Spans
import LetBlocks.Proofs.Node.Twins

/-!
A sketch is a tree that holds places instead of tokens. Filled with the tokens of a script it
is a tree of that script. Here the parser is shown to draw the same sketch for all lists of
tokens that look alike, with the places given as indices into the list: what identifiers are
called, and what literals, comments and blanks contain, has no part in it.

To find the sketch, the tokens of one list are first numbered in their spans, which the parser
carries along without looking at them. The sketch is then read off the tree of the numbered
tokens, and the tree of any other list is the twin of that one.
-/

namespace LetBlocks

structure DeclarationSketch (ι : Type) where
  name : ι
  initializer : Option (List ι)
  tokens : List ι

/-- A tree of places. -/
inductive Sketch (ι : Type)
  | plain (tokens : List ι)
  | letBlock (declarations : List (DeclarationSketch ι)) (header : List ι)
      (body : List (Sketch ι))
      (closing : Option ι)

variable {ι : Type}

/-! ### From places to tokens -/

def DeclarationSketch.fill (look : ι → Token) (d : DeclarationSketch ι) : Declaration where
  name := look d.name
  initializer := d.initializer.map (List.map look)
  tokens := d.tokens.map look

namespace Sketch

mutual

/-- The node with the tokens that `look` finds at the places. Blocks without a closing brace
end at `stop`. -/
def fill (look : ι → Token) (stop : Location) : Sketch ι → Node
  | plain tokens => .plain (tokens.map look)
  | letBlock declarations tokens body closing =>
    let header := { declarations := declarations.map (·.fill look), tokens := tokens.map look }
    .letBlock header (fillAll look stop body) (closing.map look)
      (Node.blockSpan stop header (closing.map look))

def fillAll (look : ι → Token) (stop : Location) : List (Sketch ι) → List Node
  | [] => []
  | sketch :: sketches => sketch.fill look stop :: fillAll look stop sketches

end

end Sketch

/-! ### From tokens to places -/

def Declaration.sketch (place : Token → ι) (d : Declaration) : DeclarationSketch ι where
  name := place d.name
  initializer := d.initializer.map (List.map place)
  tokens := d.tokens.map place

namespace Node

mutual

def sketch (place : Token → ι) : Node → Sketch ι
  | plain tokens => .plain (tokens.map place)
  | letBlock header body closing _ =>
    .letBlock (header.declarations.map (·.sketch place)) (header.tokens.map place)
      (sketchAll place body)
      (closing.map place)

def sketchAll (place : Token → ι) : List Node → List (Sketch ι)
  | [] => []
  | node :: nodes => node.sketch place :: sketchAll place nodes

end

end Node

/-! ### A tree is its twin's sketch, filled -/

section

variable {R : Token → Token → Prop} {place : Token → ι} {look : ι → Token} {stop : Location}
  (hR : ∀ t u, R t u → u = look (place t))
include hR

theorem eq_map_of_twin {ts us : List Token} (h : List.Forall₂ R ts us) :
    us = (ts.map place).map look := by
  induction h with
  | nil => rfl
  | cons htu _ ih => rw [List.map_cons, List.map_cons, ← hR _ _ htu, ← ih]

theorem eq_optionMap_of_twin {t u : Option Token} (h : Option.Rel R t u) :
    u = (t.map place).map look := by
  cases h with
  | none => rfl
  | some htu => exact congrArg some (hR _ _ htu)

theorem Declaration.Twin.eq_fill {d e : Declaration} (h : d.Twin R e) :
    e = (d.sketch place).fill look := by
  obtain ⟨name, initializer, tokens⟩ := d
  obtain ⟨name', initializer', tokens'⟩ := e
  obtain ⟨hname, hinitializer, htokens⟩ := h
  have hinit : initializer' = (initializer.map (List.map place)).map (List.map look) := by
    cases hinitializer with
    | none => rfl
    | some h => exact congrArg some (eq_map_of_twin hR h)
  simp only [Declaration.sketch, DeclarationSketch.fill]
  rw [← hR _ _ hname, ← hinit, ← eq_map_of_twin hR htokens]

theorem Header.Twin.eq_fill {h k : Header} (hk : h.Twin R k) :
    k = { declarations := (h.declarations.map (·.sketch place)).map (·.fill look)
          tokens := (h.tokens.map place).map look } := by
  have hdeclarations {ds es : List Declaration} (h : List.Forall₂ (Declaration.Twin R) ds es) :
      es = (ds.map (·.sketch place)).map (·.fill look) := by
    induction h with
    | nil => rfl
    | cons hd _ ih => rw [List.map_cons, List.map_cons, ← hd.eq_fill hR, ← ih]
  rw [← hdeclarations hk.declarations, ← eq_map_of_twin hR hk.tokens]

end

namespace Node

variable {R : Token → Token → Prop} {place : Token → ι} {look : ι → Token} {stop : Location}

mutual

theorem Twin.eq_fill (hR : ∀ t u, R t u → u = look (place t)) {a b : Node} (h : a.Twin R b)
    (hspans : SpannedAll stop [b]) : b = (a.sketch place).fill look stop := by
  cases h with
  | plain h => rw [sketch, Sketch.fill, ← eq_map_of_twin hR h]
  | letBlock hheader hbody hclosing =>
      obtain ⟨rfl, hspans, -⟩ := spannedAll_cons_letBlock.1 hspans
      rw [sketch, Sketch.fill, ← hheader.eq_fill hR, ← eq_optionMap_of_twin hR hclosing,
        ← twins_eq_fillAll hR hbody hspans]

theorem twins_eq_fillAll (hR : ∀ t u, R t u → u = look (place t)) {as bs : List Node}
    (h : List.Forall₂ (Twin R) as bs) (hspans : SpannedAll stop bs) :
    bs = Sketch.fillAll look stop (sketchAll place as) := by
  cases h with
  | nil => rfl
  | cons hab hrest =>
      obtain ⟨hhead, hspans⟩ := spannedAll_cons.1 hspans
      rw [sketchAll, Sketch.fillAll, ← hab.eq_fill hR hhead,
        ← twins_eq_fillAll hR hrest hspans]

end

/-- Reports carry the code and the span of a token, so places can be told from spans alone. -/
theorem twins_map_report {place : Span → ι} (hR : ∀ t u, R t u → u = look (place t.span))
    {ds es : List Diagnostic} (h : List.Forall₂ (Diagnostic.Twin R) ds es) :
    es.map (fun d => (d.code, d.span)) =
      (ds.map fun d => (d.code, place d.span)).map fun report =>
        (report.1, (look report.2).span) := by
  induction h with
  | nil => rfl
  | cons hd _ ih =>
      obtain ⟨hcode, htu⟩ := hd
      simp only [List.map_cons, ih, Problem.diagnostic, ← hcode, ← hR _ _ htu]

/-! ### Numbered tokens -/

/-- A token that tells its index: the name of its file is that long. -/
def numbered (i : Nat) (t : Token) : Token :=
  { t with span := { start := { file := List.replicate i 0 } } }

def number (n : Nat) (span : Span) : Fin (n + 1) := Fin.ofNat (n + 1) span.start.file.length

theorem number_numbered {n : Nat} (i : Fin (n + 1)) (t : Token) :
    number n (numbered i t).span = i := by
  simp [number, numbered]

/-- The numbered tokens look like the tokens of any list that the tokens themselves look like,
and they tell the index at which that list has its token. -/
theorem forall₂_numbered {n : Nat} {ts us : List Token} (hn : n + 1 = us.length)
    (h : List.Forall₂ Token.Alike ts us) :
    List.Forall₂ (fun t u => t.Alike u ∧ u = us.get ((number n t.span).cast hn))
      (ts.mapIdx numbered) us := by
  have hlength := h.length_eq
  rw [List.forall₂_iff_get] at h ⊢
  refine ⟨by simp [hlength], fun i hi hius => ?_⟩
  rw [List.length_mapIdx] at hi
  have hnumber := number_numbered (⟨i, hn ▸ hius⟩ : Fin (n + 1)) ts[i]
  simp only [List.get_eq_getElem, List.getElem_mapIdx] at h ⊢
  exact ⟨h.2 i hi hius, by rw [hnumber]; rfl⟩

/-- To a list of tokens belong a sketch of indices and codes with indices, such that the tree
and the reports of every list that looks like it are these with the tokens of that list in
their places. -/
theorem parse_eq_fill_of_alike (ts : List Token) :
    ∃ (sketches : List (Sketch (Fin ts.length))) (reports : List (Text × Fin ts.length)),
      ∀ (us : List Token) (h : List.Forall₂ Token.Alike ts us),
        (parse us).nodes =
            Sketch.fillAll (fun i => us.get (i.cast h.length_eq)) (scriptStop us) sketches ∧
          (parse us).diagnostics.map (fun d => (d.code, d.span)) =
            reports.map fun report =>
              (report.1, (us.get (report.2.cast h.length_eq)).span) := by
  cases hts : ts with
  | nil =>
      refine ⟨[], [], fun us h => ?_⟩
      cases h
      rw [parse_nil]
      exact ⟨rfl, rfl⟩
  | cons t rest =>
      let tree := parse (ts.mapIdx numbered)
      refine ⟨sketchAll (fun t => number rest.length t.span) tree.nodes,
        tree.diagnostics.map fun d => (d.code, number rest.length d.span), fun us h => ?_⟩
      rw [← hts] at h
      have hlength : rest.length + 1 = us.length := by
        rw [← h.length_eq, hts, List.length_cons]
      obtain ⟨hnodes, hdiagnostics⟩ :=
        parse_twin (fun _ _ h => h.1) (forall₂_numbered hlength h)
      let look (i : Fin (rest.length + 1)) : Token := us.get (i.cast hlength)
      have hlook (t u : Token) (h : t.Alike u ∧ u = look (number rest.length t.span)) :
          u = look (number rest.length t.span) := h.2
      exact ⟨twins_eq_fillAll hlook hnodes (spannedAll_parse us),
        twins_map_report hlook hdiagnostics⟩

/-- The literals and comments of the first list hold brackets and what would be a header; those
of the second do not. -/
theorem parse_eq_fill_of_alike_literals :
    let ts :=
      (Token.lex
        (Source.ofText (utf8 "let (a = '\x7d)') \x7b [/* let (b) \x7b */ x \x7d"))).tokens
    let us := (Token.lex (Source.ofText (utf8 "let (length = '') \x7b [/**/ y1 \x7d"))).tokens
    ∃ (h : List.Forall₂ Token.Alike ts us) (sketches : List (Sketch (Fin ts.length)))
        (reports : List (Text × Fin ts.length)),
      (parse ts).nodes = Sketch.fillAll ts.get (scriptStop ts) sketches ∧
        (parse us).nodes = Sketch.fillAll (fun i => us.get (i.cast h.length_eq))
          (scriptStop us) sketches ∧
        (parse ts).diagnostics.map (fun d => (d.code, d.span)) =
          reports.map (fun report => (report.1, (ts.get report.2).span)) ∧
        (parse us).diagnostics.map (fun d => (d.code, d.span)) =
          reports.map fun report => (report.1, (us.get (report.2.cast h.length_eq)).span) := by
  intro ts us
  have h : List.Forall₂ Token.Alike ts us := by decide +kernel
  obtain ⟨sketches, reports, hparse⟩ := parse_eq_fill_of_alike ts
  obtain ⟨hnodes, hreports⟩ := hparse ts (List.forall₂_same.2 fun _ _ => .of_eq rfl)
  exact ⟨h, sketches, reports, hnodes, (hparse us h).1, hreports, (hparse us h).2⟩

end Node

end LetBlocks
